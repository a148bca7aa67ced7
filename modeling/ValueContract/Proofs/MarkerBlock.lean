import ValueContract.Proofs.CustomFile

/-!
The marker as generated files show it. A marker is cut into lines, checked, and printed line by
line with bare line feeds. A carriage return that stood at the end of a line then stands before a
line feed, so what is read from the file is that line without it. Every line read is a comment, but
a backslash before the carriage return, which was not looked at, comes to the end of its line.
-/

namespace ValueContract

namespace Text

variable {line text rest : List Char} {char : Char}

/-- A line as it is read when a line feed follows. -/
def withoutReturn (line : List Char) : List Char :=
  if line.getLast? = some '\r' then line.dropLast else line

theorem withoutReturn_append (front : List Char) (h : line ≠ []) :
    withoutReturn (front ++ line) = front ++ withoutReturn line := by
  unfold withoutReturn
  rw [List.getLast?_append_of_ne_nil _ h, List.dropLast_append_of_ne_nil h]
  split <;> rfl

theorem splitLines_cons {lines : List (List Char)} (hc : char ≠ '\n')
    (hr : char = '\r' → text.head? ≠ some '\n') (h : splitLines text = line :: lines) :
    splitLines (char :: text) = (char :: line) :: lines := by
  rw [splitLines]
  · rw [h]
  · exact hc
  · rintro rest rfl rfl
    exact hr rfl rfl

theorem splitLines_append_newline (h : '\n' ∉ line) :
    splitLines (line ++ '\n' :: rest) = withoutReturn line :: splitLines rest := by
  induction line with
  | nil => rfl
  | cons char line ih =>
    simp only [List.mem_cons, not_or] at h
    obtain ⟨hchar, hline⟩ := h
    cases line with
    | nil =>
      by_cases hr : char = '\r'
      · subst hr
        rfl
      · rw [List.singleton_append, splitLines_cons (Ne.symm hchar) (fun h ↦ absurd h hr) rfl]
        simp [withoutReturn, hr]
    | cons next line =>
      have hnext : (next :: line ++ '\n' :: rest).head? ≠ some '\n' := by
        rintro ⟨⟩
        exact hline List.mem_cons_self
      have hstrip : withoutReturn (char :: next :: line) = char :: withoutReturn (next :: line) :=
        withoutReturn_append [char] (List.cons_ne_nil _ _)
      rw [List.cons_append, splitLines_cons (Ne.symm hchar) (fun _ ↦ hnext) (ih hline), hstrip]

theorem lines_unlines {texts : List String} (h : ∀ text ∈ texts, '\n' ∉ text.toList) :
    lines (unlines texts) = texts.map fun text ↦ String.ofList (withoutReturn text.toList) := by
  induction texts with
  | nil => rfl
  | cons text texts ih =>
    obtain ⟨ht, h⟩ := List.forall_mem_cons.1 h
    have hsplit : (unlines (text :: texts)).toList =
        text.toList ++ '\n' :: (unlines texts).toList := by
      simp [unlines]
    rw [lines, hsplit, splitLines_append_newline ht, List.map_cons, List.map_cons]
    exact congrArg _ (ih h)

theorem not_mem_of_mem_splitLines (h : line ∈ splitLines text) : '\n' ∉ line := by
  fun_induction splitLines text generalizing line with
  | case1 => cases h
  | case2 rest ih | case3 rest ih =>
    rcases List.mem_cons.1 h with rfl | h
    · exact List.not_mem_nil
    · exact ih h
  | case4 c rest hc _ _ _ =>
    cases List.mem_singleton.1 h
    simpa using Ne.symm hc
  | case5 c rest hc _ first lines hs ih =>
    rcases List.mem_cons.1 h with rfl | h
    · have hfirst : '\n' ∉ first := ih (hs ▸ List.mem_cons_self)
      simpa using ⟨Ne.symm hc, hfirst⟩
    · exact ih (hs ▸ List.mem_cons_of_mem _ h)

theorem splitLines_eq_nil_iff : splitLines text = [] ↔ text = [] := by
  fun_cases splitLines text <;> simp_all

theorem joined_newline {texts : List String} (h : texts ≠ []) :
    joined "\n" texts ++ "\n" = unlines texts := by
  induction texts with
  | nil => exact absurd rfl h
  | cons text texts ih =>
    cases texts with
    | nil => simp [joined, unlines]
    | cons next texts =>
      rw [joined, String.append_assoc, ih (List.cons_ne_nil _ _)]
      · rfl
      · exact List.cons_ne_nil _ _

theorem unlines_append (texts more : List String) :
    unlines (texts ++ more) = unlines texts ++ unlines more := by
  induction texts with
  | nil => simp [unlines]
  | cons text texts ih => simp [unlines, ih, String.append_assoc]

theorem endsWith_backslash_iff {text : String} :
    endsWith "\\" text ↔ text.toList.getLast? = some '\\' := by
  rw [endsWith_iff]
  exact List.singleton_suffix_iff_getLast?_eq_some

theorem suffix_concat_iff {front : List Char} {last : Char} :
    ['\\', '\r'] <:+ front ++ [last] ↔ front.getLast? = some '\\' ∧ last = '\r' := by
  rw [← List.singleton_suffix_iff_getLast?_eq_some, List.suffix_concat_iff]
  constructor
  · rintro (h | ⟨start, hs, h⟩)
    · cases h
    · have hcut : ['\\'] ++ ['\r'] = _ := hs
      obtain ⟨rfl, ⟨⟩⟩ := List.append_inj' hcut rfl
      exact ⟨h, rfl⟩
  · rintro ⟨h, rfl⟩
    exact .inr ⟨['\\'], rfl, h⟩

theorem getLast?_withoutReturn_iff : (withoutReturn line).getLast? = some '\\' ↔
    line.getLast? = some '\\' ∨ ['\\', '\r'] <:+ line := by
  rcases List.eq_nil_or_concat line with rfl | ⟨front, last, rfl⟩
  · simp [withoutReturn]
  · rw [List.concat_eq_append, suffix_concat_iff]
    by_cases hr : last = '\r' <;> simp [withoutReturn, hr]

theorem head?_splitLines_eq_nil_iff : (splitLines text).head? = some [] ↔
    ['\n'] <+: text ∨ ['\r', '\n'] <+: text := by
  fun_cases splitLines text with
  | case1 => simp
  | case2 rest => simp
  | case3 rest => simp
  | case4 c rest hc hr hs =>
    cases splitLines_eq_nil_iff.1 hs
    simp [Ne.symm hc]
  | case5 c rest hc hr first lines hs =>
    have hlone : '\r' = c → ¬['\n'] <+: rest := by
      rintro rfl ⟨more, rfl⟩
      exact hr more rfl rfl
    simpa [Ne.symm hc] using hlone

theorem head?_splitLines_eq_return_iff : (splitLines text).head? = some ['\r'] ↔
    text = ['\r'] ∨ ['\r', '\r', '\n'] <+: text := by
  fun_cases splitLines text with
  | case1 => simp
  | case2 rest => simp
  | case3 rest => simp
  | case4 c rest hc hr hs =>
    cases splitLines_eq_nil_iff.1 hs
    simp
  | case5 c rest hc hr first lines hs =>
    have hlone : c = '\r' → ¬['\n'] <+: rest := by
      rintro rfl ⟨more, rfl⟩
      exact hr more rfl rfl
    have hrest : rest ≠ [] := fun h ↦ by simp [splitLines_eq_nil_iff.2 h] at hs
    have hhead : (splitLines rest).head? = some [] ↔ _ := head?_splitLines_eq_nil_iff
    simp only [hs, List.head?_cons, Option.some.injEq] at hhead
    simp only [List.head?_cons, Option.some.injEq, List.cons.injEq, List.cons_prefix_cons, hhead,
      hrest, and_false, false_or, eq_comm (a := '\r')]
    tauto

/-- A line that ends with a backslash and a carriage return is one at the end of the text, or one
that another carriage return and a line feed end. -/
theorem exists_suffix_splitLines_iff : (∃ line ∈ splitLines text, ['\\', '\r'] <:+ line) ↔
    ['\\', '\r'] <:+ text ∨ ['\\', '\r', '\r', '\n'] <:+: text := by
  fun_induction splitLines text with
  | case1 => simp
  | case2 rest ih | case3 rest ih => simp [ih, List.suffix_cons_iff, List.infix_cons_iff]
  | case4 c rest hc hr hs ih =>
    cases splitLines_eq_nil_iff.1 hs
    simp [List.suffix_cons_iff, List.infix_cons_iff]
  | case5 c rest hc hr first lines hs ih =>
    have hhead : (splitLines rest).head? = some ['\r'] ↔ _ := head?_splitLines_eq_return_iff
    simp only [hs, List.head?_cons, Option.some.injEq, eq_comm (b := ['\r'])] at hhead
    simp only [hs, List.exists_mem_cons_iff] at ih
    simp only [List.exists_mem_cons_iff, List.suffix_cons_iff, List.infix_cons_iff,
      List.cons.injEq, List.cons_prefix_cons, hhead]
    rw [or_assoc, ih, and_or_left, or_or_or_comm]

end Text

namespace Marker

variable {marker line : String}

def block (marker : String) : String := comment marker ++ "\n"

theorem fault?_eq_none_iff : fault? marker = none ↔
    Text.isBlank marker = false ∧ ∀ line ∈ Text.lines marker, Text.endsWith "\\" line = false := by
  unfold fault?
  split
  · simp_all
  · split <;> simp_all

theorem block_eq (h : Text.isBlank marker = false) :
    block marker = Text.unlines (commentLines marker) := by
  apply Text.joined_newline
  intro hnil
  rw [commentLines, List.map_eq_nil_iff, Text.lines, List.map_eq_nil_iff,
    Text.splitLines_eq_nil_iff] at hnil
  simp [Text.isBlank, hnil] at h

theorem not_mem_commentLines (h : line ∈ commentLines marker) : '\n' ∉ line.toList := by
  simp only [commentLines, Text.lines, List.mem_map] at h
  obtain ⟨_, ⟨chars, hc, rfl⟩, rfl⟩ := h
  have hnot := Text.not_mem_of_mem_splitLines hc
  unfold commentLine
  split
  · decide
  · simpa using hnot

/-- A comment line as it is read from the file. -/
theorem withoutReturn_commentLine (line : String) :
    (line = "" ∧ Text.withoutReturn (commentLine line).toList = "//".toList) ∨
      Text.withoutReturn (commentLine line).toList =
        "// ".toList ++ Text.withoutReturn line.toList := by
  unfold commentLine
  split
  · next h => exact .inl ⟨h, by decide⟩
  · next h =>
    have hne : line.toList ≠ [] := by simpa using h
    rw [String.toList_append]
    exact .inr (Text.withoutReturn_append _ hne)

theorem prefix_withoutReturn_commentLine (line : String) :
    "//".toList <+: Text.withoutReturn (commentLine line).toList := by
  rcases withoutReturn_commentLine line with ⟨-, h⟩ | h
  · rw [h]
  · rw [h]
    exact ⟨' ' :: Text.withoutReturn line.toList, rfl⟩

theorem getLast?_withoutReturn_commentLine_iff :
    (Text.withoutReturn (commentLine line).toList).getLast? = some '\\' ↔
      line.toList.getLast? = some '\\' ∨ ['\\', '\r'] <:+ line.toList := by
  rw [← Text.getLast?_withoutReturn_iff]
  rcases withoutReturn_commentLine line with ⟨rfl, h⟩ | h
  · rw [h]
    simp [Text.withoutReturn]
  · rw [h, List.getLast?_append]
    cases (Text.withoutReturn line.toList).getLast? <;> simp

theorem mem_lines_block_iff (h : Text.isBlank marker = false) :
    line ∈ Text.lines (block marker) ↔ ∃ source ∈ Text.lines marker,
      String.ofList (Text.withoutReturn (commentLine source).toList) = line := by
  rw [block_eq h, Text.lines_unlines fun _ ↦ not_mem_commentLines]
  simp [commentLines]

end Marker

namespace ClassUnit

theorem print_append (u : ClassUnit) (before after : List Line) :
    u.print (before ++ after) = u.print before ++ u.print after := by
  simp only [print, Line.document, List.map_append, Text.unlines_append]

theorem print_flush (u : ClassUnit) (texts : List String) :
    u.print (texts.map (⟨0, ·⟩)) = Text.unlines texts := by
  simp [print, Line.document, Line.render, Text.repeated, Function.comp_def]

theorem print_commentLines_eq {u : ClassUnit} (h : Text.isBlank u.settings.marker = false) :
    u.print u.commentLines = Marker.block u.settings.marker := by
  rw [commentLines, print_flush, Marker.block_eq h]

def includeBlock (s : Settings) (entity : String) (dependencies : List String) : String :=
  Text.unlines ((entity :: dependencies).map fun d ↦ "#include \"" ++ s.includePath ++ d ++ ".hpp\"")

theorem print_includeLines_eq (u : ClassUnit) :
    u.print u.includeLines = includeBlock u.settings u.entity u.dependencies := by
  have hlines : u.includeLines = ((u.entity :: u.dependencies).map
      fun d ↦ "#include \"" ++ u.settings.includePath ++ d ++ ".hpp\"").map (⟨0, ·⟩) := by
    simp [includeLines, includeLine, headerNameOf, String.append_assoc]
  rw [hlines, print_flush, includeBlock]

theorem implementation_eq {u : ClassUnit} (h : Text.isBlank u.settings.marker = false) :
    u.implementation = Marker.block u.settings.marker ++ "\n" ++
      includeBlock u.settings u.entity u.dependencies ++ "\n" ++
      u.print (u.members.flatMap (·.definition u.entity)) := by
  simp only [implementation, implementationLines, print_append, print_commentLines_eq h,
    print_includeLines_eq]
  rfl

end ClassUnit

namespace Catalog

variable {c : Catalog} {s : Settings} {name : String} {u : ClassUnit}

theorem settings_of_emit (h : c.emit s name = .ok u) :
    u.settings = s ∧ Marker.fault? s.marker = none := by
  obtain ⟨e, -, hu⟩ := ofEntity_of_emit h
  obtain ⟨fields, methods, hf, -, rfl⟩ := ClassUnit.ofEntity_eq_ok hu
  simp only [ClassUnit.classFields, bind_eq_ok_iff] at hf
  obtain ⟨_, -, _, hm, -⟩ := hf
  refine ⟨rfl, ?_⟩
  unfold ClassUnit.checkMarker at hm
  split at hm
  · cases hm
  · next hnone => exact hnone

theorem print_commentLines (u : ClassUnit) (h : Text.isBlank u.settings.marker = false)
    (before after : List Line) : u.print (before ++ u.commentLines ++ after) =
      u.print before ++ Marker.block u.settings.marker ++ u.print after := by
  rw [ClassUnit.print_append, ClassUnit.print_append, ClassUnit.print_commentLines_eq h]

/-- Both generated files show the marker as a block of comment lines. A line of it ends with a
backslash only where a carriage return hid the backslash from the check: at the end of the marker,
or before a line end that is itself a carriage return and a line feed. -/
theorem marker_shown (h : c.emit s name = .ok u) :
    (∃ rest, u.header = "#pragma once\n" ++ Marker.block s.marker ++ rest) ∧
    (∃ rest, u.implementation = Marker.block s.marker ++ rest) ∧
    (∀ line ∈ Text.lines (Marker.block s.marker), "//".toList <+: line.toList) ∧
    ((∃ line ∈ Text.lines (Marker.block s.marker), Text.endsWith "\\" line) ↔
      Text.endsWith "\\\r" s.marker ∨ Text.occursIn "\\\r\r\n" s.marker) := by
  obtain ⟨rfl, hfault⟩ := settings_of_emit h
  obtain ⟨hblank, hlines⟩ := Marker.fault?_eq_none_iff.1 hfault
  refine ⟨?_, ?_, ?_, ?_⟩
  · obtain ⟨rest, hrest⟩ :
        ∃ rest, u.headerLines = [⟨0, "#pragma once"⟩] ++ u.commentLines ++ rest := by
      simp only [ClassUnit.headerLines, List.append_assoc, List.cons_append, List.nil_append]
      exact ⟨_, rfl⟩
    refine ⟨u.print rest, ?_⟩
    rw [ClassUnit.header, hrest, print_commentLines u hblank]
    rfl
  · obtain ⟨rest, hrest⟩ : ∃ rest, u.implementationLines = [] ++ u.commentLines ++ rest := by
      simp only [ClassUnit.implementationLines, List.append_assoc, List.nil_append]
      exact ⟨_, rfl⟩
    refine ⟨u.print rest, ?_⟩
    rw [ClassUnit.implementation, hrest, print_commentLines u hblank]
    simp [ClassUnit.print, Line.document, Text.unlines]
  · intro line hl
    obtain ⟨source, -, rfl⟩ := (Marker.mem_lines_block_iff hblank).1 hl
    simpa using Marker.prefix_withoutReturn_commentLine source
  · have hsource : ∀ source ∈ Text.lines u.settings.marker, source.toList.getLast? ≠ some '\\' := by
      intro source hs hlast
      rw [← Text.endsWith_backslash_iff, hlines source hs] at hlast
      cases hlast
    calc (∃ line ∈ Text.lines (Marker.block u.settings.marker), Text.endsWith "\\" line)
        ↔ ∃ source ∈ Text.lines u.settings.marker,
            (Text.withoutReturn (Marker.commentLine source).toList).getLast? = some '\\' := by
          simp [Marker.mem_lines_block_iff hblank, Text.endsWith_backslash_iff]
      _ ↔ ∃ source ∈ Text.lines u.settings.marker, ['\\', '\r'] <:+ source.toList := by
          refine exists_congr fun source ↦ and_congr_right fun hs ↦ ?_
          rw [Marker.getLast?_withoutReturn_commentLine_iff, or_iff_right (hsource source hs)]
      _ ↔ ∃ line ∈ Text.splitLines u.settings.marker.toList, ['\\', '\r'] <:+ line := by
          simp [Text.lines]
      _ ↔ Text.endsWith "\\\r" u.settings.marker ∨ Text.occursIn "\\\r\r\n" u.settings.marker := by
          rw [Text.exists_suffix_splitLines_iff, Text.endsWith_iff, Text.occursIn_iff]
          rfl

def flags : Catalog where
  entities := [⟨"Flag", [⟨"on", .primitive .bool, 0⟩], []⟩]

def windowsMarked : Settings where
  marker := "Generated.\r\n\r\nKeep \\ away from line ends.\r"

theorem flags_marker_shown : ∃ u, flags.emit windowsMarked "Flag" = .ok u ∧
    (∃ rest, u.header = "#pragma once\n" ++ Marker.block windowsMarked.marker ++ rest) ∧
    Text.lines (Marker.block windowsMarked.marker) =
      ["// Generated.", "//", "// Keep \\ away from line ends."] ∧
    ¬∃ line ∈ Text.lines (Marker.block windowsMarked.marker), Text.endsWith "\\" line := by
  obtain ⟨u, hu⟩ : ∃ u, flags.emit windowsMarked "Flag" = .ok u := exists_eq_ok (by decide +kernel)
  obtain ⟨hheader, -, -, hends⟩ := marker_shown hu
  exact ⟨u, hu, hheader, by decide, hends.not.2 (by decide)⟩

def returnMarked : Settings where
  marker := "Generated.\\\r"

/-- The comment takes in the line after it: in the header, the blank line below the includes. -/
theorem backslash_before_return_printed : ∃ u, flags.emit returnMarked "Flag" = .ok u ∧
    "#pragma once\n// Generated.\\\r\n\nclass Flag\n".toList <+: u.header.toList ∧
    ∃ line ∈ Text.lines (Marker.block u.settings.marker), Text.endsWith "\\" line := by
  have hcheck : (fun u : ClassUnit ↦
      "#pragma once\n// Generated.\\\r\n\nclass Flag\n".toList.isPrefixOf u.header.toList &&
        (Text.lines (Marker.block u.settings.marker)).any (Text.endsWith "\\")) <$>
      flags.emit returnMarked "Flag" = .ok true := by
    decide +kernel
  obtain ⟨u, hu, hshown⟩ := map_eq_ok_iff.1 hcheck
  simp only [Bool.and_eq_true, List.isPrefixOf_iff_prefix, List.any_eq_true] at hshown
  exact ⟨u, hu, hshown⟩

end Catalog

end ValueContract
