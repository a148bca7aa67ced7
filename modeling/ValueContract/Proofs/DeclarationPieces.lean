import ValueContract.Proofs.NameCapture

/-!
Declarations piece by piece. Types are not checked when an entity is defined, so the name of an
entity in a type can be any text. What a class declares is put together from names of entities,
names of members and parameters, and a few fixed texts; once the class is emitted every piece is
harmless, and a declaration is one plain line.
-/

namespace ValueContract

variable {c : Catalog} {s : Settings} {e : Entity} {u : ClassUnit} {name : String}

inductive Piece
  | entity (name : String)
  /-- A field, a method or a parameter. -/
  | own (name : String)
  | mark (text : String)
  deriving DecidableEq, Repr

namespace Piece

def text : Piece → String
  | entity name => name
  | own name => name
  | mark text => text

def line (pieces : List Piece) : String :=
  pieces.foldr (·.text ++ ·) ""

def joined (separator : Piece) : List (List Piece) → List Piece
  | [] => []
  | [pieces] => pieces
  | pieces :: rest => pieces ++ separator :: joined separator rest

@[simp] theorem line_nil : line [] = "" := rfl

@[simp] theorem line_cons (p : Piece) (pieces : List Piece) :
    line (p :: pieces) = p.text ++ line pieces := rfl

@[simp] theorem line_append (front back : List Piece) :
    line (front ++ back) = line front ++ line back := by
  induction front with
  | nil => simp
  | cons p front ih => rw [List.cons_append, line_cons, ih, line_cons, String.append_assoc]

theorem line_joined (separator : Piece) (parts : List (List Piece)) :
    line (joined separator parts) = Text.joined separator.text (parts.map line) := by
  fun_induction joined separator parts with
  | case1 | case2 => rfl
  | case3 pieces rest hne ih =>
    cases rest with
    | nil => exact (hne rfl).elim
    | cons next rest =>
      have hjoined (text next : String) (texts : List String) :
          Text.joined separator.text (text :: next :: texts) =
            text ++ separator.text ++ Text.joined separator.text (next :: texts) := rfl
      simp only [line_append, line_cons, ih, List.map_cons, hjoined, String.append_assoc]

theorem of_mem_joined {separator p : Piece} {parts : List (List Piece)}
    (h : p ∈ joined separator parts) : p = separator ∨ ∃ pieces ∈ parts, p ∈ pieces := by
  fun_induction joined separator parts with
  | case1 => cases h
  | case2 pieces => exact .inr ⟨pieces, List.mem_cons_self, h⟩
  | case3 pieces rest _ ih =>
    rcases List.mem_append.1 h with h | h
    · exact .inr ⟨pieces, List.mem_cons_self, h⟩
    · rcases List.mem_cons.1 h with h | h
      · exact .inl h
      · obtain h | ⟨other, hother, h⟩ := ih h
        · exact .inl h
        · exact .inr ⟨other, List.mem_cons_of_mem _ hother, h⟩

end Piece

namespace TypeExpr

def pieces : TypeExpr → List Piece
  | primitive kind => (kind.spelling?.map .mark).toList
  | entity name => [.entity name]
  | list inner => .mark "std::vector<" :: inner.pieces ++ [.mark ">"]

/-- The type before the name that it declares; `taken` stands after an entity. -/
def leadPieces (taken : String) : TypeExpr → List Piece
  | entity name => [.entity name, .mark taken]
  | ty => ty.pieces ++ [.mark " "]

def returnPieces (ty : TypeExpr) : List Piece :=
  if ty = .primitive .void then [.mark "void "] else ty.pieces ++ [.mark " "]

theorem line_pieces {ty : TypeExpr} {text : String} (h : ty.spelling = .ok text) :
    Piece.line ty.pieces = text := by
  induction ty generalizing text with
  | primitive kind =>
    cases hk : kind.spelling? with
    | none => simp [spelling, hk] at h
    | some spelled =>
      simp only [spelling, hk, Option.elim_some, Except.ok.injEq] at h
      simp [pieces, hk, h, Piece.text]
  | entity name =>
    cases h
    simp [pieces, Piece.text]
  | list inner ih =>
    rw [spelling, bind_eq_ok_iff] at h
    obtain ⟨text, ht, h⟩ := h
    cases h
    simp [pieces, ih ht, Piece.text, String.append_assoc]

theorem leadPieces_eq {ty : TypeExpr} (h : ∀ name, ty ≠ .entity name) (taken : String) :
    ty.leadPieces taken = ty.pieces ++ [.mark " "] := by
  cases ty with
  | entity name => exact absurd rfl (h name)
  | primitive kind => rfl
  | list inner => rfl

end TypeExpr

namespace Field

def pieces (f : Field) : List Piece :=
  f.ty.leadPieces " *" ++ [.own f.name, .mark ";"]

theorem line_pieces {f : Field} {g : ClassField} (hname : g.name = f.name)
    (h : ClassUnit.storageOf f.ty = .ok g.storage) : Piece.line f.pieces = g.declaration := by
  unfold ClassUnit.storageOf at h
  split at h
  · next target hty =>
    simp only [Except.ok.injEq] at h
    simp [pieces, hty, TypeExpr.leadPieces, Piece.text, ClassField.declaration,
      ClassField.declarator, ← h, Declarator.lead, hname, String.append_assoc]
  · next hne =>
    simp only [bind_eq_ok_iff] at h
    obtain ⟨type, ht, zero, -, h⟩ := h
    simp only [pure, Except.pure, Except.ok.injEq] at h
    rw [pieces, TypeExpr.leadPieces_eq hne]
    simp [TypeExpr.line_pieces ht, Piece.text, ClassField.declaration,
      ClassField.declarator, ← h, Declarator.lead, hname, String.append_assoc]

end Field

namespace Parameter

def pieces (p : Parameter) : List Piece :=
  p.ty.leadPieces " &" ++ [.own p.name]

theorem line_pieces {p : Parameter} {declared : Declarator × String}
    (h : CustomMethod.parameterOf p = .ok declared) :
    Piece.line p.pieces = declared.1.lead ++ declared.2 := by
  simp only [CustomMethod.parameterOf, bind_eq_ok_iff] at h
  obtain ⟨declarator, hd, h⟩ := h
  cases h
  unfold CustomMethod.parameterDeclarator at hd
  split at hd
  · next target hty =>
    cases hd
    simp [pieces, hty, TypeExpr.leadPieces, Piece.text, Declarator.lead, String.append_assoc]
  · next hne =>
    obtain ⟨type, ht, hd⟩ := bind_eq_ok_iff.1 hd
    cases hd
    rw [pieces, TypeExpr.leadPieces_eq hne]
    simp [TypeExpr.line_pieces ht, Piece.text, Declarator.lead, String.append_assoc]

end Parameter

namespace Method

def pieces (m : Method) (scope : List Piece) : List Piece :=
  m.returns.returnPieces ++ scope ++ [.own m.name, .mark "("] ++
    Piece.joined (.mark ", ") (m.parameters.map (·.pieces)) ++ [.mark ")"]

theorem line_pieces {m : Method} {type : String} {custom : CustomMethod}
    (h : CustomMethod.ofMethod type m = .ok custom) (scope : List Piece) :
    Piece.line (m.pieces scope) = custom.signatureIn (Piece.line scope) := by
  simp only [CustomMethod.ofMethod, bind_eq_ok_iff] at h
  obtain ⟨returned, hr, parameters, hp, h⟩ := h
  cases h
  have hreturns : Piece.line m.returns.returnPieces = returned.elim "void " (·.type ++ " ") := by
    unfold CustomMethod.returnedOf at hr
    split at hr
    · next hvoid =>
      cases hr
      simp [TypeExpr.returnPieces, hvoid, Piece.text]
    · next hvoid =>
      simp only [bind_eq_ok_iff] at hr
      obtain ⟨type, ht, zero, -, hr⟩ := hr
      cases hr
      simp [TypeExpr.returnPieces, hvoid, TypeExpr.line_pieces ht, Piece.text]
  have hparameters : m.parameters.map (fun p ↦ Piece.line p.pieces) =
      parameters.map fun p ↦ p.1.lead ++ p.2 :=
    map_eq_map_of_forall₂ (mapM_eq_ok_iff.1 hp) fun _ _ ↦ Parameter.line_pieces
  simp [pieces, CustomMethod.signatureIn, CustomMethod.parameterList, hreturns, Piece.line_joined,
    Function.comp_def, hparameters, Piece.text, String.append_assoc]

end Method

def MemberRole.pieces (type : String) : MemberRole → List Piece
  | defaultConstructor => [.entity type, .mark "();"]
  | copyConstructor => [.entity type, .mark "(const ", .entity type, .mark " &other);"]
  | destructor => [.mark "~", .entity type, .mark "();"]
  | copyTo => [.mark "void copy_to(", .entity type, .mark " &other) const;"]
  | clone => [.entity type, .mark " clone() const;"]
  | equality => [.mark "bool operator==(const ", .entity type, .mark " &other) const;"]
  | inequality => [.mark "bool operator!=(const ", .entity type, .mark " &other) const;"]
  | assignment => [.entity type, .mark " &operator=(const ", .entity type, .mark " &other);"]

theorem MemberRole.line_pieces (type : String) (fields : List ClassField) (role : MemberRole) :
    Piece.line (role.pieces type) = (Member.contract type fields role).declaration := by
  rw [← String.toList_inj]
  cases role <;>
    simp [pieces, Member.contract, Member.declaration, Member.signature, Declarator.lead, Piece.text]

/-- What the class of the entity declares: fields, contract members and methods, and the methods
once more with the class before their names. -/
def Entity.declarationPieces (e : Entity) : List (List Piece) :=
  e.fields.map (·.pieces) ++ MemberRole.all.map (·.pieces e.name) ++
    e.methods.map (fun m ↦ m.pieces [] ++ [.mark ";"]) ++
    e.methods.map (·.pieces [.entity e.name, .mark "::"])

namespace ClassUnit

def declaredTexts (u : ClassUnit) : List String :=
  u.fields.map (·.declaration) ++ u.members.map (·.declaration) ++
    u.methods.map (·.declaration) ++ u.methods.map (·.signature)

theorem declaredTexts_eq (h : (ofEntity s e).result = .ok u) :
    u.declaredTexts = e.declarationPieces.map Piece.line := by
  have hu := isOf_of_ofEntity h
  have hmethods := mapM_eq_ok_iff.1 (mapM_ofMethod_of_ofEntity h)
  have hfields : e.fields.map (fun f ↦ Piece.line f.pieces) = u.fields.map (·.declaration) :=
    map_eq_map_of_forall₂ hu.fields fun _ _ hf ↦ Field.line_pieces hf.1 hf.2
  have hdeclarations : e.methods.map (fun m ↦ Piece.line (m.pieces [] ++ [.mark ";"])) =
      u.methods.map (·.declaration) := by
    apply map_eq_map_of_forall₂ hmethods
    intro m custom hm
    rw [Piece.line_append, Method.line_pieces hm]
    rfl
  have hsignatures : e.methods.map (fun m ↦ Piece.line (m.pieces [.entity e.name, .mark "::"])) =
      u.methods.map (·.signature) := by
    apply map_eq_map_of_forall₂ hmethods
    intro m custom hm
    rw [Method.line_pieces hm, CustomMethod.signature, (name_of_ofMethod hm).1]
    rfl
  simp only [declaredTexts, Entity.declarationPieces, hu.members, List.map_append, List.map_map,
    Function.comp_def, hfields, hdeclarations, hsignatures, MemberRole.line_pieces e.name u.fields]

end ClassUnit

namespace Catalog

/-- The name of a declared entity that generated code can echo. -/
structure Echoable (c : Catalog) (name : String) : Prop where
  declared : name ∈ c.names
  identifier : Name.isIdentifier name
  keyword : name ∉ Reserved.keywords
  bound : name ∉ Reserved.boundNames

theorem Echoable.of_isFree (hm : name ∈ c.names) (hf : Name.isFree name) : c.Echoable name := by
  simp only [Name.isFree, Reserved.isReserved, Reserved.isKeyword, Bool.and_eq_true,
    Bool.not_eq_true', Bool.or_eq_false_iff, List.contains_eq_mem, decide_eq_false_iff_not] at hf
  exact ⟨hm, hf.1, hf.2.1, hf.2.2⟩

end Catalog

namespace Piece

def marks : List String :=
  Primitive.all.filterMap (·.spelling?) ++
    ["std::vector<", ">", " ", " *", " &", ", ", ";", "::", "(", ")", "void ", "();", "(const ",
      " &other);", "~", "void copy_to(", " &other) const;", " clone() const;",
      "bool operator==(const ", "bool operator!=(const ", " &operator=(const "]

def Allowed (c : Catalog) : Piece → Prop
  | entity name => c.Echoable name
  | own name => Name.isIdentifier name
  | mark text => text ∈ marks

@[simp] theorem allowed_entity : Allowed c (entity name) ↔ c.Echoable name := .rfl

@[simp] theorem allowed_own : Allowed c (own name) ↔ Name.isIdentifier name := .rfl

@[simp] theorem allowed_mark {text : String} : Allowed c (mark text) ↔ text ∈ marks := .rfl

def Safe (c : Catalog) (pieces : List Piece) : Prop :=
  ∀ p ∈ pieces, p.Allowed c

@[simp] theorem safe_nil : Safe c [] := by simp [Safe]

@[simp] theorem safe_cons {p : Piece} {pieces : List Piece} :
    Safe c (p :: pieces) ↔ p.Allowed c ∧ Safe c pieces := List.forall_mem_cons

@[simp] theorem safe_append {front back : List Piece} :
    Safe c (front ++ back) ↔ Safe c front ∧ Safe c back := List.forall_mem_append

theorem safe_joined {separator : Piece} {parts : List (List Piece)} (hs : separator.Allowed c)
    (h : ∀ pieces ∈ parts, Safe c pieces) : Safe c (joined separator parts) := by
  intro p hp
  obtain rfl | ⟨pieces, hmem, hp⟩ := of_mem_joined hp
  · exact hs
  · exact h pieces hmem p hp

def isPlainChar (char : Char) : Bool :=
  Name.isPart char || " *&,;:<>()=!~".toList.contains char

theorem isPlainChar_of_mem_text {p : Piece} {char : Char} (h : p.Allowed c)
    (hc : char ∈ p.text.toList) : isPlainChar char := by
  have hname {name : String} (h : Name.isIdentifier name) (hc : char ∈ name.toList) :
      isPlainChar char := by
    simp [isPlainChar, Name.isPart_of_isIdentifier h hc]
  cases p with
  | entity name => exact hname (allowed_entity.1 h).identifier hc
  | own name => exact hname h hc
  | mark text =>
    have hmarks : marks.all fun text ↦ text.toList.all isPlainChar := by decide +kernel
    exact List.all_eq_true.1 (List.all_eq_true.1 hmarks text h) char hc

theorem isPlainChar_of_mem_line {pieces : List Piece} {char : Char} (h : Safe c pieces)
    (hc : char ∈ (line pieces).toList) : isPlainChar char := by
  induction pieces with
  | nil => cases hc
  | cons p pieces ih =>
    obtain ⟨hp, h⟩ := safe_cons.1 h
    rw [line_cons, String.toList_append, List.mem_append] at hc
    exact hc.elim (isPlainChar_of_mem_text hp) (ih h)

end Piece

namespace TypeExpr

variable {ty : TypeExpr} (h : ∀ other, ty.referenced? = some other → c.Echoable other)
include h

theorem safe_pieces : Piece.Safe c ty.pieces := by
  induction ty with
  | primitive kind =>
    intro p hp
    obtain ⟨text, ht, rfl⟩ := Option.map_eq_some_iff.1 (Option.mem_toList.1 hp)
    have hkind : kind ∈ Primitive.all := by cases kind <;> decide
    exact List.mem_append_left _ (List.mem_filterMap.2 ⟨kind, hkind, ht⟩)
  | entity name => simpa [pieces] using h name rfl
  | list inner ih =>
    have hinner := ih h
    simpa [pieces, Piece.marks] using hinner

theorem safe_leadPieces {taken : String} (ht : taken ∈ Piece.marks) :
    Piece.Safe c (ty.leadPieces taken) := by
  by_cases hty : ∃ name, ty = entity name
  · obtain ⟨name, rfl⟩ := hty
    simpa [leadPieces, ht] using h name rfl
  · have hpieces := safe_pieces h
    rw [leadPieces_eq (not_exists.1 hty)]
    simpa [Piece.marks] using hpieces

theorem safe_returnPieces : Piece.Safe c ty.returnPieces := by
  have hpieces := safe_pieces h
  unfold returnPieces
  split
  · simp [Piece.marks]
  · simpa [Piece.marks] using hpieces

end TypeExpr

theorem MemberRole.safe_pieces {type : String} (h : c.Echoable type) (role : MemberRole) :
    Piece.Safe c (role.pieces type) := by
  cases role <;> simp [pieces, Piece.marks, h]

theorem Method.safe_pieces {m : Method} {scope : List Piece} (hn : Name.isIdentifier m.name)
    (hp : ∀ p ∈ m.parameters, Name.isIdentifier p.name)
    (ht : ∀ ty ∈ m.types, ∀ other, ty.referenced? = some other → c.Echoable other)
    (hs : Piece.Safe c scope) : Piece.Safe c (m.pieces scope) := by
  have hreturns := TypeExpr.safe_returnPieces (ht m.returns List.mem_cons_self)
  have hparameters : Piece.Safe c (Piece.joined (.mark ", ") (m.parameters.map (·.pieces))) := by
    apply Piece.safe_joined
    · simp [Piece.marks]
    · intro pieces hpieces
      obtain ⟨p, hmem, rfl⟩ := List.mem_map.1 hpieces
      have hty : p.ty ∈ m.types := List.mem_cons_of_mem _ (List.mem_map_of_mem hmem)
      have htaken : " &" ∈ Piece.marks := by simp [Piece.marks]
      exact Piece.safe_append.2
        ⟨TypeExpr.safe_leadPieces (ht p.ty hty) htaken, by simp [hp p hmem]⟩
  simp [pieces, Piece.marks, hreturns, hs, hn, hparameters]

namespace Catalog

theorem echoable_of_types (hr : c.resolve name = .ok e) (he : e.Plain) :
    ∀ ty ∈ e.types, ∀ other, ty.referenced? = some other → c.Echoable other :=
  fun ty ht other ho ↦ .of_isFree (mem_names_of_types hr ht ho) (he.types ty ht other ho)

theorem echoable_name (hr : c.resolve name = .ok e) (he : e.Plain) : c.Echoable e.name :=
  .of_isFree (List.mem_map_of_mem (List.mem_of_find?_eq_some (find?_of_resolve hr))) he.name

theorem safe_declarationPieces (hr : c.resolve name = .ok e) (he : e.Plain) :
    ∀ pieces ∈ e.declarationPieces, Piece.Safe c pieces := by
  have htypes := echoable_of_types hr he
  have hname := echoable_name hr he
  have hmethod (m : Method) (hm : m ∈ e.methods) (scope : List Piece)
      (hs : Piece.Safe c scope) : Piece.Safe c (m.pieces scope) :=
    Method.safe_pieces (Name.isIdentifier_of_isFree (he.methods m hm)) (he.parameters m hm)
      (fun ty hty ↦ htypes ty (List.mem_append_right _ (List.mem_flatMap.2 ⟨m, hm, hty⟩))) hs
  simp only [Entity.declarationPieces, List.forall_mem_append, List.forall_mem_map]
  refine ⟨⟨⟨?_, ?_⟩, ?_⟩, ?_⟩
  · intro f hf
    have hty := htypes f.ty (List.mem_append_left _ (List.mem_map_of_mem hf))
    have htaken : " *" ∈ Piece.marks := by simp [Piece.marks]
    have hident := Name.isIdentifier_of_isFree (he.fields f hf)
    exact Piece.safe_append.2
      ⟨TypeExpr.safe_leadPieces hty htaken, by simp [hident, Piece.marks]⟩
  · exact fun role _ ↦ MemberRole.safe_pieces hname role
  · intro m hm
    exact Piece.safe_append.2 ⟨hmethod m hm [] Piece.safe_nil, by simp [Piece.marks]⟩
  · exact fun m hm ↦ hmethod m hm _ (by simp [hname, Piece.marks])

/-- What is emitted names declared entities only, whatever text the types of the catalogue hold:
the dependencies and every piece of a declaration are harmless. So a declaration or signature is a
single line that opens no string, comment, directive or block. -/
theorem declarations_harmless (hc : c.Built) (h : c.emit s name = .ok u) :
    ∃ e, c.resolve name = .ok e ∧ u.declaredTexts = e.declarationPieces.map Piece.line ∧
      (∀ d ∈ u.dependencies, c.Echoable d) ∧
      (∀ pieces ∈ e.declarationPieces, Piece.Safe c pieces) ∧
      ∀ text ∈ u.declaredTexts, text.toList.all Piece.isPlainChar ∧
        ∀ char ∈ ['\n', '\r', '\x22', '\x27', '\\', '\x7b', '\x7d', '/', '#'],
          char ∉ text.toList := by
  obtain ⟨e, hr, hu, he⟩ := plain_of_emit hc h
  have htexts := ClassUnit.declaredTexts_eq hu
  have hsafe := safe_declarationPieces hr he
  refine ⟨e, hr, htexts, ?_, hsafe, ?_⟩
  · intro d hd
    obtain ⟨ty, ht, ho⟩ := ClassUnit.exists_type_of_dependency hu hd
    exact echoable_of_types hr he ty ht d ho
  · intro text ht
    rw [htexts] at ht
    obtain ⟨pieces, hpieces, rfl⟩ := List.mem_map.1 ht
    have hplain : ∀ char ∈ (Piece.line pieces).toList, Piece.isPlainChar char :=
      fun char hchar ↦ Piece.isPlainChar_of_mem_line (hsafe pieces hpieces) hchar
    refine ⟨List.all_eq_true.2 hplain, fun char hchar hmem ↦ ?_⟩
    have hnone : ['\n', '\r', '\x22', '\x27', '\\', '\x7b', '\x7d', '/', '#'].all
        (!Piece.isPlainChar ·) := by decide
    simpa [hplain char hmem] using List.all_eq_true.1 hnone char hchar

/-- A type of the last entity holds no name at all. -/
def depot : Catalog where
  entities :=
    [⟨"Bin", [⟨"label", .primitive .string, 0⟩], []⟩,
      ⟨"Depot", [⟨"bins", .list (.list (.entity "Bin")), 0⟩, ⟨"spare", .entity "Bin", 1⟩],
        [⟨"pick", .list (.entity "Bin"), [⟨"like", .entity "Bin"⟩, ⟨"count", .primitive .u8⟩]⟩,
          ⟨"clear", .primitive .void, []⟩]⟩,
      ⟨"Trap", [⟨"bait", .entity "Bin;\n#undef x", 0⟩], []⟩]

theorem depot_built : depot.Built := by
  have hbin : Entity.define "Bin" [("label", .primitive .string)] = .ok depot.entities[0] := rfl
  have hfields : Entity.define "Depot"
      [("bins", .list (.list (.entity "Bin"))), ("spare", .entity "Bin")] =
      .ok { depot.entities[1] with methods := [] } := rfl
  have hmethods : Entity.withMethods { depot.entities[1] with methods := [] }
      depot.entities[1].methods = .ok depot.entities[1] := rfl
  have htrap : Entity.define "Trap" [("bait", .entity "Bin;\n#undef x")] =
      .ok depot.entities[2] := rfl
  exact .declare (.declare (.declare .empty (.define hbin) rfl)
    (.withMethods (.define hfields) hmethods) rfl) (.define htrap) rfl

theorem depot_declarations_harmless : ∃ u, depot.emit {} "Depot" = .ok u ∧
    "std::vector<std::vector<Bin>> bins;" ∈ u.declaredTexts ∧
    "std::vector<Bin> Depot::pick(Bin &like, uint8_t count)" ∈ u.declaredTexts ∧
    depot.Echoable "Bin" ∧ (∀ text ∈ u.declaredTexts, '\n' ∉ text.toList) ∧
    (depot.emit {} "Trap").isOk = false := by
  have hshown : (fun u : ClassUnit ↦ (u.dependencies,
        u.declaredTexts.contains "std::vector<std::vector<Bin>> bins;",
        u.declaredTexts.contains "std::vector<Bin> Depot::pick(Bin &like, uint8_t count)")) <$>
      depot.emit {} "Depot" = .ok (["Bin"], true, true) := by
    decide +kernel
  obtain ⟨u, hu, hshown⟩ := map_eq_ok_iff.1 hshown
  simp only [Prod.mk.injEq, List.contains_iff_mem] at hshown
  obtain ⟨hdependencies, hfield, hmethod⟩ := hshown
  obtain ⟨e, -, -, hechoable, -, hlines⟩ := declarations_harmless depot_built hu
  refine ⟨u, hu, hfield, hmethod, hechoable "Bin" (by simp [hdependencies]), ?_, by decide +kernel⟩
  exact fun text ht ↦ (hlines text ht).2 '\n' List.mem_cons_self

end Catalog

end ValueContract
