import ValueContract.Proofs.Batch
import ValueContract.Proofs.SignatureLines

namespace ValueContract

namespace Text

variable {text blanks : String} {c : Char}

def isIndentation (c : Char) : Bool := c = ' ' || c = '\t'

/-- The text cut at its line feeds, each line without the spaces and tabs that it starts with. -/
def flushLines (text : String) : List String :=
  (text.toList.splitOn '\n').map fun line ↦ String.ofList (line.dropWhile isIndentation)

theorem flushLines_append_newline (front rest : String) :
    flushLines (front ++ "\n" ++ rest) = flushLines front ++ flushLines rest := by
  have hsplit : (front ++ "\n" ++ rest).toList = front.toList ++ '\n' :: rest.toList := by simp
  rw [flushLines, hsplit, List.splitOn_append_cons_self, List.map_append]
  rfl

theorem flushLines_unlines (texts : List String) :
    flushLines (unlines texts) = texts.flatMap flushLines ++ [""] := by
  induction texts with
  | nil => rfl
  | cons text texts ih =>
    rw [unlines, flushLines_append_newline, ih, List.flatMap_cons, List.append_assoc]

theorem map_dropWhile_splitOn_cons (h : isIndentation c) (chars : List Char) :
    ((c :: chars).splitOn '\n').map (·.dropWhile isIndentation) =
      (chars.splitOn '\n').map (·.dropWhile isIndentation) := by
  have hc : ¬(c == '\n') := by
    intro heq
    rw [eq_of_beq heq] at h
    exact absurd h (by decide)
  rw [List.splitOn, List.splitOnP_cons_eq_if_modifyHead, if_neg hc, ← List.splitOn]
  cases chars.splitOn '\n' with
  | nil => rfl
  | cons line lines => simp [h]

theorem map_dropWhile_splitOn_append {front : List Char} (h : ∀ c ∈ front, isIndentation c)
    (chars : List Char) :
    ((front ++ chars).splitOn '\n').map (·.dropWhile isIndentation) =
      (chars.splitOn '\n').map (·.dropWhile isIndentation) := by
  induction front with
  | nil => rfl
  | cons c front ih =>
    obtain ⟨hc, h⟩ := List.forall_mem_cons.1 h
    rw [List.cons_append, map_dropWhile_splitOn_cons hc, ih h]

theorem flushLines_append (h : ∀ c ∈ blanks.toList, isIndentation c) (text : String) :
    flushLines (blanks ++ text) = flushLines text := by
  have hlines := congrArg (List.map String.ofList) (map_dropWhile_splitOn_append h text.toList)
  rw [List.map_map, List.map_map] at hlines
  rwa [flushLines, String.toList_append]

theorem flushLines_eq_singleton {chars : List Char} (hc : isIndentation c = false)
    (htext : text.toList = c :: chars) (h : '\n' ∉ text.toList) : flushLines text = [text] := by
  rw [flushLines, List.splitOn_eq_singleton h, List.map_singleton, htext,
    List.dropWhile_cons_of_neg (by simp [hc]), ← htext, String.ofList_toList]

end Text

open Text (flushLines)

theorem Indent.isIndentation_of_mem_step {c : Char} (indent : Indent) (h : c ∈ indent.step.toList) :
    Text.isIndentation c := by
  by_contra hc
  exact indent.not_mem_step (by simpa [Text.isIndentation] using hc) h

/-- A line at any depth, with any indentation, is the text of the line once the blanks are off. -/
theorem Line.flushLines_render (indent : Indent) (line : Line) :
    flushLines (line.render indent.step) = flushLines line.text := by
  apply Text.flushLines_append
  intro c hc
  exact indent.isIndentation_of_mem_step (Text.mem_of_mem_repeated hc)

def Line.flushed (lines : List Line) : List String :=
  lines.flatMap (flushLines ·.text)

theorem Line.flushLines_document (indent : Indent) (lines : List Line) :
    flushLines (document indent.step lines) = flushed lines ++ [""] := by
  rw [document, Text.flushLines_unlines, List.flatMap_map, flushed]
  simp only [flushLines_render]

namespace ClassUnit

variable {u : ClassUnit} {s s' : Settings} {e : Entity}

def under (u : ClassUnit) (s : Settings) : ClassUnit := { u with settings := s }

theorem flushLines_print (u : ClassUnit) (lines : List Line) :
    flushLines (u.print lines) = Line.flushed lines ++ [""] :=
  Line.flushLines_document u.settings.indent lines

def linesAboveIncludes (u : ClassUnit) : List Line := u.commentLines ++ [⟨0, ""⟩]

def linesBelowIncludes (u : ClassUnit) : List Line :=
  ⟨0, ""⟩ :: u.members.flatMap (·.definition u.entity)

theorem implementationLines_eq (u : ClassUnit) : u.implementationLines =
    u.linesAboveIncludes ++ u.includeLines ++ u.linesBelowIncludes := by
  simp [implementationLines, linesAboveIncludes, linesBelowIncludes]

section Marker

variable (h : s.marker = u.settings.marker)
include h

theorem headerLines_under : (u.under s).headerLines = u.headerLines := by
  simp only [headerLines, commentLines, under, h]

theorem linesAboveIncludes_under : (u.under s).linesAboveIncludes = u.linesAboveIncludes := by
  simp only [linesAboveIncludes, commentLines, under, h]

end Marker

def inclusions (u : ClassUnit) (path : String) : List String :=
  (u.entity :: u.dependencies).map fun d ↦ "#include \"" ++ path ++ d ++ ".hpp\""

section Includes

variable (hpath : '\n' ∉ u.settings.includePath.toList)
  (hnames : ∀ d ∈ u.entity :: u.dependencies, '\n' ∉ d.toList)
include hpath hnames

theorem flushed_includeLines :
    Line.flushed u.includeLines = u.inclusions u.settings.includePath := by
  have hline : ∀ d ∈ u.entity :: u.dependencies, flushLines (u.includeLine d).text =
      ["#include \"" ++ u.settings.includePath ++ d ++ ".hpp\""] := by
    intro d hd
    have htext : (u.includeLine d).text =
        "#include \"" ++ u.settings.includePath ++ d ++ ".hpp\"" := by
      simp [includeLine, headerNameOf, String.append_assoc]
    rw [htext]
    refine Text.flushLines_eq_singleton (c := '#') rfl (by simp; rfl) ?_
    simp [hpath, hnames d hd]
  rw [Line.flushed, includeLines, List.flatMap_map, List.flatMap_congr hline]
  exact List.map_eq_flatMap.symm

/-- Above and below the include lines no setting shows but the marker. -/
theorem flushLines_implementation : flushLines u.implementation =
    Line.flushed u.linesAboveIncludes ++ u.inclusions u.settings.includePath ++
      (Line.flushed u.linesBelowIncludes ++ [""]) := by
  rw [implementation, flushLines_print, implementationLines_eq,
    ← flushed_includeLines hpath hnames]
  simp [Line.flushed]

end Includes

section Emission

variable (hl : s.language = s'.language) (hm : s.marker = s'.marker)
include hl hm

theorem classFields_eq_of_language (e : Entity) : classFields s e = classFields s' e := by
  have hfield : classField s e = classField s' e := by
    funext f
    simp only [classField, hl]
  simp only [classFields, checkNames, checkMarker, hfield, hl, hm]

theorem result_ofEntity_under (e : Entity) :
    (ofEntity s' e).result = (·.under s') <$> (ofEntity s e).result := by
  have hmethods : customMethod s e = customMethod s' e := by
    funext m
    simp only [customMethod, hl]
  unfold ofEntity
  rw [classFields_eq_of_language hl hm, hmethods]
  cases classFields s' e with
  | error fault => rfl
  | ok fields => cases e.methods.mapM (customMethod s' e) <;> rfl

end Emission

end ClassUnit

namespace Catalog

variable {c : Catalog} {s s' : Settings} {name : String} {u u' : ClassUnit}

theorem emit_under (hl : s.language = s'.language) (hm : s.marker = s'.marker) (c : Catalog)
    (name : String) : c.emit s' name = (·.under s') <$> c.emit s name := by
  unfold emit emitTraced
  cases c.resolve name with
  | error fault => rfl
  | ok e => exact ClassUnit.result_ofEntity_under hl hm e

theorem not_mem_newline_of_emit (hc : c.Built) (h : c.emit s name = .ok u) :
    ∀ d ∈ u.entity :: u.dependencies, '\n' ∉ d.toList := by
  intro d hd
  have hdeclared : d ∈ c.names := by
    rcases List.mem_cons.1 hd with rfl | hd
    · rw [entity_of_emit h]
      exact mem_names_of_emit h
    · exact mem_names_of_dependencies h hd
  intro hmem
  have hpart := Name.isPart_of_isIdentifier (hc.isIdentifier_of_mem_names hdeclared) hmem
  exact absurd hpart (by decide)

/-- Under settings with the same language and marker an entity is emitted or fails alike. But for
the blanks in front of lines, the headers are the same and the implementations differ in the path of
the include lines alone. The header does not depend on that path at all. -/
theorem layout_cosmetic (hc : c.Built) (name : String) (hl : s.language = s'.language)
    (hm : s.marker = s'.marker) :
    (∀ error, c.emit s name = .error error ↔ c.emit s' name = .error error) ∧
    ((∃ u, c.emit s name = .ok u) ↔ ∃ u', c.emit s' name = .ok u') ∧
    (∀ u u', c.emit s name = .ok u → c.emit s' name = .ok u' →
      flushLines u.header = flushLines u'.header ∧
      ('\n' ∉ s.includePath.toList → '\n' ∉ s'.includePath.toList →
        ∃ before after,
          flushLines u.implementation = before ++ u.inclusions s.includePath ++ after ∧
          flushLines u'.implementation = before ++ u.inclusions s'.includePath ++ after)) ∧
    ∀ path, (·.header) <$> c.emit { s with includePath := path } name =
      (·.header) <$> c.emit s name := by
  have hunder := emit_under hl hm c name
  refine ⟨?_, ?_, ?_, ?_⟩
  · intro error
    rw [hunder, map_eq_error_iff]
  · simp [hunder, map_eq_ok_iff]
  · intro u u' hu hu'
    rw [hunder, hu] at hu'
    cases hu'
    obtain ⟨rfl, -⟩ := settings_of_emit hu
    have hmarker : s'.marker = u.settings.marker := hm.symm
    constructor
    · rw [ClassUnit.header, ClassUnit.header, ClassUnit.flushLines_print,
        ClassUnit.flushLines_print, ClassUnit.headerLines_under hmarker]
    · intro hpath hpath'
      have hnames := not_mem_newline_of_emit hc hu
      have hfirst := ClassUnit.flushLines_implementation hpath hnames
      have hsecond := ClassUnit.flushLines_implementation (u := u.under s') hpath' hnames
      rw [ClassUnit.linesAboveIncludes_under hmarker] at hsecond
      exact ⟨_, _, hfirst, hsecond⟩
  · intro path
    have hpath : c.emit { s with includePath := path } name =
        (·.under { s with includePath := path }) <$> c.emit s name :=
      emit_under (by rfl) (by rfl) c name
    rw [hpath]
    cases hu : c.emit s name with
    | error fault => rfl
    | ok u =>
      obtain ⟨rfl, -⟩ := settings_of_emit hu
      rfl

def pictures : Catalog where
  entities :=
    [⟨"Frame", [⟨"width", .primitive .f32, 0⟩], []⟩,
      ⟨"Picture", [⟨"frame", .entity "Frame", 0⟩, ⟨"tags", .list (.primitive .string), 1⟩],
        [⟨"crop", .primitive .void, [⟨"by", .entity "Frame"⟩]⟩]⟩]

theorem pictures_built : pictures.Built := by
  have hframe : Entity.define "Frame" [("width", .primitive .f32)] =
      .ok pictures.entities[0] := rfl
  have hpicture : Entity.define "Picture"
      [("frame", .entity "Frame"), ("tags", .list (.primitive .string))] =
      .ok { pictures.entities[1] with methods := [] } := rfl
  have hmethods : Entity.withMethods { pictures.entities[1] with methods := [] }
      [⟨"crop", .primitive .void, [⟨"by", .entity "Frame"⟩]⟩] = .ok pictures.entities[1] := rfl
  exact .declare (.declare .empty (.define hframe) rfl)
    (.withMethods (.define hpicture) hmethods) rfl

def unindented : Settings where
  indent := .spaces 0
  includePath := "art/"

theorem pictures_layout_cosmetic : ∃ u u', pictures.emit {} "Picture" = .ok u ∧
    pictures.emit unindented "Picture" = .ok u' ∧
    flushLines u.header = flushLines u'.header ∧
    ∃ before after,
      flushLines u.implementation =
        before ++ ["#include \"../Picture.hpp\"", "#include \"../Frame.hpp\""] ++ after ∧
      flushLines u'.implementation =
        before ++ ["#include \"art/Picture.hpp\"", "#include \"art/Frame.hpp\""] ++ after := by
  have hlanguage : ({} : Settings).language = unindented.language := rfl
  have hmarker : ({} : Settings).marker = unindented.marker := rfl
  have hshown : (fun u : ClassUnit ↦ (u.entity, u.dependencies)) <$> pictures.emit {} "Picture" =
      .ok ("Picture", ["Frame"]) := by
    decide +kernel
  obtain ⟨u, hu, hparts⟩ := map_eq_ok_iff.1 hshown
  obtain ⟨hentity, hdependencies⟩ := Prod.mk.inj hparts
  obtain ⟨-, hboth, htexts, -⟩ := layout_cosmetic pictures_built "Picture" hlanguage hmarker
  obtain ⟨u', hu'⟩ := hboth.1 ⟨u, hu⟩
  obtain ⟨hheader, himplementation⟩ := htexts u u' hu hu'
  have hlines := himplementation (by decide) (by decide)
  rw [ClassUnit.inclusions, ClassUnit.inclusions, hentity, hdependencies] at hlines
  exact ⟨u, u', hu, hu', hheader, hlines⟩

end Catalog

end ValueContract
