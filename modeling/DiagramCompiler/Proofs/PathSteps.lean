import DiagramCompiler.Files.Path
import DiagramCompiler.Proofs.WrittenText

/-! Steps of paths.
The pieces of a path are its text cut at the slashes, and the pieces of a text that is joined with
slashes are what was joined. A name in a directory is one step more than the directory, whichever
way the directory is written, and so is the name with another extension. -/
namespace DiagramCompiler

namespace Text

variable {α : Type} [DecidableEq α] {sep : α}

theorem splitAll_of_not_mem {cs : List α} (h : sep ∉ cs) : splitAll sep cs = [cs] := by
  induction cs with
  | nil => rfl
  | cons c cs ih =>
    have hc : c ≠ sep := fun heq => h (heq ▸ List.mem_cons_self)
    rw [splitAll, if_neg hc, ih fun hmem => h (List.mem_cons_of_mem c hmem)]

theorem splitAll_append (front back : List α) :
    splitAll sep (front ++ sep :: back) = splitAll sep front ++ splitAll sep back := by
  induction front with
  | nil => simp [splitAll]
  | cons c front ih =>
    rw [List.cons_append, splitAll.eq_def, splitAll.eq_def sep (c :: front)]
    by_cases hc : c = sep
    · simp only [if_pos hc, ih, List.cons_append]
    · simp only [if_neg hc, ih]
      cases h : splitAll sep front with
      | nil => exact absurd h (splitAll_ne_nil sep front)
      | cons p ps => rfl

/-- What ends a text without a separator ends its last piece. -/
theorem exists_splitAll_append (front : List α) {back : List α} (h : sep ∉ back) :
    ∃ before last, splitAll sep (front ++ back) = before ++ [last ++ back] := by
  induction front with
  | nil => exact ⟨[], [], splitAll_of_not_mem h⟩
  | cons c cs ih =>
    obtain ⟨before, last, hlast⟩ := ih
    rw [List.cons_append, splitAll, hlast]
    split
    · exact ⟨[] :: before, last, rfl⟩
    · cases before with
      | nil => exact ⟨[], c :: last, rfl⟩
      | cons piece before => exact ⟨(c :: piece) :: before, last, rfl⟩

theorem not_mem_of_mem_splitAll {cs p : List α} (h : p ∈ splitAll sep cs) : sep ∉ p := by
  induction cs generalizing p with
  | nil =>
    obtain rfl := List.mem_singleton.1 h
    simp
  | cons c cs ih =>
    rw [splitAll] at h
    split at h
    · rcases List.mem_cons.1 h with rfl | h
      · simp
      · exact ih h
    · next hc =>
      split at h
      · next hnil => exact absurd hnil (splitAll_ne_nil sep cs)
      · next q qs hcons =>
        rw [hcons] at ih
        rcases List.mem_cons.1 h with rfl | h
        · rw [List.mem_cons, not_or]
          exact ⟨fun heq => hc heq.symm, ih List.mem_cons_self⟩
        · exact ih (List.mem_cons_of_mem q h)

theorem splitAll_joinWith {ps : List (List α)} (hne : ps ≠ []) (h : ∀ p ∈ ps, sep ∉ p) :
    splitAll sep (joinWith [sep] ps) = ps := by
  induction ps with
  | nil => exact absurd rfl hne
  | cons p ps ih =>
    cases ps with
    | nil => exact splitAll_of_not_mem (h p List.mem_cons_self)
    | cons q ps =>
      rw [joinWith, List.append_assoc, List.singleton_append, splitAll_append,
        splitAll_of_not_mem (h p List.mem_cons_self),
        ih (by simp) fun r hr => h r (List.mem_cons_of_mem p hr)]
      rfl

end Text

namespace Path

theorem not_mem_of_mem_pieces {p : Path} {piece : String} (h : piece ∈ p.pieces) :
    '/' ∉ piece.toList := by
  obtain ⟨cs, hcs, rfl⟩ := List.mem_map.1 h
  rw [String.toList_ofList]
  exact Text.not_mem_of_mem_splitAll hcs

theorem pieces_joined {pieces : List String} (hne : pieces ≠ [])
    (h : ∀ piece ∈ pieces, '/' ∉ piece.toList) :
    (⟨Text.joined "/" pieces⟩ : Path).pieces = pieces := by
  have hslash : ("/" : String).toList = ['/'] := by decide
  have hcut : Text.splitAll '/' (Text.joinWith ['/'] (pieces.map String.toList)) =
      pieces.map String.toList := Text.splitAll_joinWith (by simpa using hne) (by simpa using h)
  simp [Path.pieces, Text.joined, hslash, hcut, Function.comp_def]

theorem head?_pieces_eq_iff {p : Path} :
    p.pieces.head? = some "" ↔ p.text.toList = [] ∨ p.isAbsolute = true := by
  have hempty : String.ofList [] = "" := by decide
  simp only [isAbsolute, decide_eq_true_eq, pieces]
  cases p.text.toList with
  | nil => simp [Text.splitAll, hempty]
  | cons c cs =>
    obtain ⟨q, qs, hq⟩ := List.exists_cons_of_ne_nil (Text.splitAll_ne_nil '/' cs)
    rw [Text.splitAll]
    by_cases hc : c = '/'
    · simp [hc, hempty]
    · simp [hc, hq]

theorem isName_of_mem {step : String} {c : Char} (h : c ∈ step.toList) (hc : c ≠ '.') :
    isName step = true := by
  have hdot : (".": String).toList = ['.'] := by decide
  have hdots : ("..": String).toList = ['.', '.'] := by decide
  have hne : step ≠ "." ∧ step ≠ ".." := by
    constructor
    · rintro rfl
      simp [hdot, hc] at h
    · rintro rfl
      simp [hdots, hc] at h
  simp [isName, hne]

theorem isName_of_fileName {p : Path} {name : String} (h : p.fileName = some name) :
    name ≠ "" ∧ isName name = true ∧ '/' ∉ name.toList := by
  obtain ⟨hlast, hdots⟩ := Option.filter_eq_some_iff.1 h
  have hpart := List.mem_of_getLast? hlast
  obtain ⟨hstep, hdot⟩ := List.mem_filter.1 hpart
  obtain ⟨hpiece, hne⟩ := List.mem_filter.1 hstep
  refine ⟨by simpa using hne, ?_, not_mem_of_mem_pieces hpiece⟩
  simp_all [isName]

/-! ### Names in directories -/

/-- Whether a path is that of a name in a directory. -/
structure Names (p directory : Path) (name : String) : Prop where
  isName : isName name = true
  steps : p.steps = directory.steps ++ [name]
  isAbsolute : p.isAbsolute = directory.isAbsolute

def Before (directory : Path) (front : List String) : Prop :=
  front.filter (· ≠ "") = directory.steps ∧
    (front.head? = some "" ↔ directory.isAbsolute = true)

theorem names_of_pieces {p directory : Path} {name : String} {front : List String}
    (h : p.pieces = front ++ [name]) (hfront : directory.Before front) (hne : name ≠ "")
    (hname : isName name = true) : p.Names directory name where
  isName := hname
  steps := by
    rw [Path.steps, h, List.filter_append, hfront.1]
    simp [hne]
  isAbsolute := by
    have hhead : p.pieces.head? = some "" ↔ front.head? = some "" := by
      rw [h]
      cases front <;> simp [hne]
    have htext : p.text.toList ≠ [] := fun heq => by
      have hpieces : p.pieces = [""] := by
        rw [Path.pieces, heq]
        rfl
      rw [h] at hpieces
      cases front with
      | nil => exact hne (by simpa using hpieces)
      | cons q front => simp at hpieces
    refine Bool.eq_iff_iff.2 (Iff.trans ?_ (hhead.trans hfront.2))
    simp [head?_pieces_eq_iff, htext]

/-- The pieces of a path below a directory are those of the directory and then its own. -/
theorem exists_pieces_join (directory : Path) {name : String}
    (hhead : name.toList.head? ≠ some '/') :
    ∃ front, (directory.join name).pieces = front ++ (⟨name⟩ : Path).pieces ∧
      directory.Before front := by
  have hmark : ("/" : String).toList = ['/'] := by decide
  have hempty : String.ofList [] = "" := by decide
  rw [join, if_neg hhead]
  by_cases htext : directory.text = ""
  · refine ⟨[], ?_, ?_⟩
    · simp [Path.pieces, htext]
    · simp [Before, Path.steps, Path.pieces, isAbsolute, htext, Text.splitAll, hempty]
  · have hlist : directory.text.toList ≠ [] := fun heq => htext (String.toList_eq_nil_iff.1 heq)
    by_cases hend : directory.endsInSlash = true
    · -- the slash at the end is followed by an empty piece, in whose place the name comes
      obtain ⟨front, hfront⟩ : ∃ front, directory.text.toList = front ++ ['/'] :=
        List.getLast?_eq_some_iff.1 (by simpa [endsInSlash] using hend)
      have hpieces : directory.pieces = (Text.splitAll '/' front).map String.ofList ++ [""] := by
        rw [Path.pieces, hfront, Text.splitAll_append]
        simp [Text.splitAll, hempty]
      rw [if_pos (.inr hend)]
      refine ⟨(Text.splitAll '/' front).map String.ofList, ?_, ?_, ?_⟩
      · simp [Path.pieces, hfront, Text.splitAll_append]
      · simp [Path.steps, hpieces]
      · refine Iff.trans ?_ (head?_pieces_eq_iff.trans (or_iff_right hlist))
        rw [hpieces]
        obtain ⟨q, qs, hq⟩ := List.exists_cons_of_ne_nil (Text.splitAll_ne_nil '/' front)
        simp [hq]
    · rw [if_neg (not_or.2 ⟨htext, hend⟩)]
      refine ⟨directory.pieces, ?_, rfl, head?_pieces_eq_iff.trans (or_iff_right hlist)⟩
      simp [Path.pieces, hmark, Text.splitAll_append]

theorem pieces_name {name : String} (hslash : '/' ∉ name.toList) :
    (⟨name⟩ : Path).pieces = [name] := by
  simp [Path.pieces, Text.splitAll_of_not_mem hslash]

theorem exists_pieces_join_name (directory : Path) {name : String} (hslash : '/' ∉ name.toList) :
    ∃ front, (directory.join name).pieces = front ++ [name] ∧ directory.Before front := by
  obtain ⟨front, hpieces, hfront⟩ := exists_pieces_join directory fun h =>
    hslash (List.mem_of_head? h)
  exact ⟨front, pieces_name hslash ▸ hpieces, hfront⟩

theorem names_join (directory : Path) {name : String} (hne : name ≠ "")
    (hname : isName name = true) (hslash : '/' ∉ name.toList) :
    (directory.join name).Names directory name := by
  obtain ⟨front, hpieces, hfront⟩ := exists_pieces_join_name directory hslash
  exact names_of_pieces hpieces hfront hne hname

theorem fileName_of_pieces {p : Path} {name : String} {front : List String}
    (h : p.pieces = front ++ [name]) (hne : name ≠ "") (hname : isName name = true) :
    p.fileName = some name := by
  obtain ⟨hdot, hdots⟩ : name ≠ "." ∧ name ≠ ".." := by simpa [isName] using hname
  have hparts : p.parts.getLast? = some name := by
    rw [parts, steps, h]
    simp [hne, hdot]
  rw [fileName, hparts]
  simp [hdots]

theorem stem_append {front ext : List Char} (hfront : front ≠ []) (hext : '.' ∉ ext) :
    stem (front ++ '.' :: ext) = front := by
  have hcut : Text.splitFirst '.' (ext.reverse ++ '.' :: front.reverse) =
      some (ext.reverse, front.reverse) :=
    Text.splitFirst_append (by simpa using hext) front.reverse
  simp [stem, hcut, hfront]

theorem names_withExtension (directory : Path) {front ext other : String}
    (hfront : front ≠ "") (hdot : front ≠ ".") (hslash : '/' ∉ front.toList)
    (hext : '.' ∉ ext.toList) (hext' : '/' ∉ ext.toList) (hother : '/' ∉ other.toList)
    (hname : isName (front ++ "." ++ ext) = true) (hname' : isName (front ++ "." ++ other) = true) :
    ((directory.join (front ++ "." ++ ext)).withExtension other).Names directory
      (front ++ "." ++ other) := by
  have hmark : (".": String).toList = ['.'] := by decide
  have hslash₁ : '/' ∉ (front ++ "." ++ ext).toList := by simp [hmark, hslash, hext']
  have hslash₂ : '/' ∉ (front ++ "." ++ other).toList := by simp [hmark, hslash, hother]
  have hne₁ : front ++ "." ++ ext ≠ "" := by simp [hfront]
  have hne₂ : front ++ "." ++ other ≠ "" := by simp [hfront]
  obtain ⟨before, hpieces, hbefore⟩ := exists_pieces_join_name directory hslash₁
  have hfile : (directory.join (front ++ "." ++ ext)).fileName = some (front ++ "." ++ ext) := by
    exact fileName_of_pieces hpieces hne₁ hname
  have htrimmed : trimmed (before ++ [front ++ "." ++ ext]) = before ++ [front ++ "." ++ ext] := by
    obtain ⟨hlast, -⟩ : front ++ "." ++ ext ≠ "." ∧ front ++ "." ++ ext ≠ ".." := by
      simpa only [isName, Bool.and_eq_true, decide_eq_true_eq] using hname
    simp [trimmed, hne₁, hlast]
  have hrenamed : renamed (front ++ "." ++ ext) other = front ++ "." ++ other := by
    have hstem : stem (front ++ "." ++ ext).toList = front.toList := by
      simpa [hmark] using stem_append (mt String.toList_eq_nil_iff.1 hfront) hext
    have hdot' : front.toList ≠ ['.'] := fun heq => hdot (String.toList_inj.1 (heq.trans hmark.symm))
    rw [renamed, hstem, if_neg hdot', String.ofList_toList]
  refine names_of_pieces ?_ hbefore hne₂ hname'
  rw [withExtension, hfile]
  simp only [hpieces, htrimmed, hrenamed, List.dropLast_concat]
  refine pieces_joined (by simp) fun piece hpiece => ?_
  rcases List.mem_append.1 hpiece with h | h
  · have hmem : piece ∈ (directory.join (front ++ "." ++ ext)).pieces :=
      hpieces ▸ List.mem_append_left _ h
    exact not_mem_of_mem_pieces hmem
  · rw [List.mem_singleton.1 h]
    exact hslash₂

/-- A name that has a dash and an extension, and the same name with another extension. -/
theorem names_entry (directory : Path) {front ext other : String} (hdash : '-' ∈ front.toList)
    (hslash : '/' ∉ front.toList) (hext : '.' ∉ ext.toList) (hext' : '/' ∉ ext.toList)
    (hother : '/' ∉ other.toList) :
    (directory.join (front ++ "." ++ ext)).Names directory (front ++ "." ++ ext) ∧
      ((directory.join (front ++ "." ++ ext)).withExtension other).Names directory
        (front ++ "." ++ other) := by
  have hmark : (".": String).toList = ['.'] := by decide
  have hname (ext : String) : isName (front ++ "." ++ ext) = true :=
    isName_of_mem (c := '-') (by simp [hdash]) (by decide)
  have hne : front ≠ "" := by
    rintro rfl
    exact absurd hdash (by decide)
  have hdot : front ≠ "." := by
    rintro rfl
    exact absurd hdash (by decide)
  exact ⟨names_join _ (by simp [hne]) (hname ext) (by simp [hmark, hslash, hext']),
    names_withExtension _ hne hdot hslash hext hext' hother (hname ext) (hname other)⟩

end Path
end DiagramCompiler
