import DiagramCompiler.Text.Blank
import DiagramCompiler.Text.Line
import DiagramCompiler.Text.Numeral

/-! Texts that are written and read back.
Lines that are each ended by a line feed are read back as they were, and so are words with spaces
between them. A number written in decimal is read back exactly if it is below the bound of the
reader; a reader that combines several of them gives an answer exactly if all of them do. -/
namespace DiagramCompiler

/-- Whether an answer is a value exactly under a condition, and then the given one. -/
def Answers {ε α : Type} (answer : Except ε α) (condition : Prop) (value : α) : Prop :=
  ∀ x, answer = .ok x ↔ condition ∧ x = value

namespace Answers

variable {ε α β : Type} {a : Except ε α} {value : α} {p q : Prop}

theorem of_ok (value : α) : Answers (.ok value : Except ε α) True value := fun x => by
  simp [eq_comm]

theorem of_error (fault : ε) (value : α) : Answers (.error fault : Except ε α) False value :=
  fun x => by simp

theorem eq_ok (h : Answers a p value) (hp : p) : a = .ok value := (h value).2 ⟨hp, rfl⟩

theorem congr (h : Answers a p value) (hpq : p ↔ q) : Answers a q value := fun x => by
  rw [h x, hpq]

theorem bind {f : α → Except ε β} {result : β} (h : Answers a p value)
    (hf : Answers (f value) q result) : Answers (a >>= f) (p ∧ q) result := fun x => by
  cases a with
  | error fault =>
    have hp : ¬ p := fun hp => absurd (h.eq_ok hp) (by simp)
    simp [bind, Except.bind, hp]
  | ok found =>
    obtain ⟨hp, rfl⟩ := (h found).1 rfl
    simp only [Bind.bind, Except.bind, hf x, hp, true_and]

theorem bind_ok {f : α → Except ε β} {result : β} (h : Answers a p value)
    (hf : f value = .ok result) : Answers (a >>= f) p result :=
  (h.bind (hf ▸ of_ok result)).congr (by simp)

theorem map {f : α → β} (h : Answers a p value) : Answers (a.map f) p (f value) := fun x => by
  cases a with
  | error fault =>
    have hp : ¬ p := fun hp => absurd (h.eq_ok hp) (by simp)
    simp [Except.map, hp]
  | ok found =>
    obtain ⟨hp, rfl⟩ := (h found).1 rfl
    simp [Except.map, hp, eq_comm]

theorem mapM {read : α → Except ε β} {fits : α → Prop} {result : α → β} (xs : List α)
    (h : ∀ x ∈ xs, Answers (read x) (fits x) (result x)) :
    Answers (xs.mapM read) (∀ x ∈ xs, fits x) (xs.map result) := by
  induction xs with
  | nil => exact (of_ok []).congr (by simp)
  | cons x xs ih =>
    rw [List.mapM_cons]
    have hrest := ih fun y hy => h y (List.mem_cons_of_mem x hy)
    have hlast : Answers (xs.mapM read >>= fun ys => pure (result x :: ys)) _ _ :=
      hrest.bind (of_ok (result x :: xs.map result))
    have hcons := (h x List.mem_cons_self).bind (f := fun y => do
      let ys ← xs.mapM read
      pure (y :: ys)) hlast
    exact hcons.congr (by simp)

end Answers

/-! ### Lines and words -/

namespace Text

section Line

variable {α : Type} [DecidableEq α] {sep : α}

theorem splitEnded_append {line : List α} (h : sep ∉ line) (rest : List α) :
    splitEnded sep (line ++ sep :: rest) = line :: splitEnded sep rest := by
  induction line with
  | nil => simp [splitEnded]
  | cons c line ih =>
    have hc : c ≠ sep := fun heq => h (heq ▸ List.mem_cons_self)
    have hline := ih fun hmem => h (List.mem_cons_of_mem c hmem)
    rw [List.cons_append, splitEnded.eq_def]
    simp only [if_neg hc, hline]
    cases line <;> rfl

theorem splitFirst_append {front : List α} (h : sep ∉ front) (back : List α) :
    splitFirst sep (front ++ sep :: back) = some (front, back) := by
  induction front with
  | nil => simp [splitFirst]
  | cons c front ih =>
    have hc : c ≠ sep := fun heq => h (heq ▸ List.mem_cons_self)
    rw [List.cons_append, splitFirst, if_neg hc, ih fun hmem => h (List.mem_cons_of_mem c hmem)]
    rfl

end Line

/-- A line without a line feed of its own is the first one of a text that goes on after it. -/
theorem lines_append {line : List Char} (h : '\n' ∉ line) (rest : List Char) :
    lines (line ++ '\n' :: rest) = dropReturn line :: lines rest := by
  have hruns := splitEnded_append h rest
  cases rest with
  | nil =>
    rw [lines, if_pos (by simp), hruns]
    rfl
  | cons c rest =>
    have hlast : (line ++ '\n' :: c :: rest).getLast? = (c :: rest).getLast? := by
      simp [List.getLast?_append, List.getLast?_cons]
    have hne : splitEnded '\n' (c :: rest) ≠ [] := by
      rw [splitEnded.eq_def]
      simp only
      split
      · simp
      · split <;> simp
    obtain ⟨run, runs, hcons⟩ := List.exists_cons_of_ne_nil hne
    rw [lines, lines, hlast, hruns, hcons]
    by_cases hend : (c :: rest).getLast? = some '\n'
    · simp [hend]
    · simp [hend, List.getLast?_cons_cons]

theorem lines_flatMap_append {ls : List (List Char)} (h : ∀ l ∈ ls, '\n' ∉ l)
    (rest : List Char) :
    lines ((ls.flatMap fun l => l ++ ['\n']) ++ rest) = ls.map dropReturn ++ lines rest := by
  induction ls with
  | nil => rfl
  | cons l ls ih =>
    rw [List.flatMap_cons, List.append_assoc, List.append_assoc, List.singleton_append,
      lines_append (h l List.mem_cons_self), ih fun l' hl => h l' (List.mem_cons_of_mem l hl)]
    rfl

theorem lines_flatMap {ls : List (List Char)} (h : ∀ l ∈ ls, '\n' ∉ l) (h' : ∀ l ∈ ls, '\r' ∉ l) :
    lines (ls.flatMap fun l => l ++ ['\n']) = ls := by
  have hdrop : ls.map dropReturn = ls := by
    refine (List.map_congr_left fun l hl => ?_).trans (List.map_id ls)
    have hlast : l.getLast? ≠ some '\r' := fun heq => h' l hl (List.mem_of_getLast? heq)
    simp [dropReturn, hlast]
  have hlines := lines_flatMap_append h []
  rwa [List.append_nil, hdrop, show lines [] = [] from rfl, List.append_nil] at hlines

def IsWord (w : List Char) : Prop := w ≠ [] ∧ ∀ c ∈ w, isBlank c = false

theorem words_blank {c : Char} (h : isBlank c = true) (cs : List Char) :
    words (c :: cs) = words cs := by
  cases cs <;> simp [words, h]

theorem words_append {w : List Char} (hw : IsWord w) {c : Char} (hc : isBlank c = true)
    (cs : List Char) : words (w ++ c :: cs) = w :: words cs := by
  obtain ⟨hne, hall⟩ := hw
  induction w with
  | nil => exact absurd rfl hne
  | cons a w ih =>
    have ha := hall a List.mem_cons_self
    cases w with
    | nil => simp [words, ha, hc, words_blank hc]
    | cons b w =>
      have hb := hall b (List.mem_cons_of_mem a List.mem_cons_self)
      have hrest := ih (by simp) fun x hx => hall x (List.mem_cons_of_mem a hx)
      rw [List.cons_append] at hrest
      simp [words, ha, hb, hrest]

theorem words_of_isWord {w : List Char} (hw : IsWord w) : words w = [w] := by
  obtain ⟨hne, hall⟩ := hw
  induction w with
  | nil => exact absurd rfl hne
  | cons a w ih =>
    have ha := hall a List.mem_cons_self
    cases w with
    | nil => simp [words, ha]
    | cons b w =>
      have hb := hall b (List.mem_cons_of_mem a List.mem_cons_self)
      have hrest := ih (by simp) fun x hx => hall x (List.mem_cons_of_mem a hx)
      simp [words, ha, hb, hrest]

theorem words_joinWith {ws : List (List Char)} (h : ∀ w ∈ ws, IsWord w) :
    words (joinWith [' '] ws) = ws := by
  induction ws with
  | nil => rfl
  | cons w ws ih =>
    have hw := h w List.mem_cons_self
    cases ws with
    | nil => exact words_of_isWord hw
    | cons v ws =>
      rw [joinWith, List.append_assoc, List.singleton_append, words_append hw (by decide),
        ih fun x hx => h x (List.mem_cons_of_mem w hx)]

theorem head?_joinWith (sep : List Char) {w : List Char} (hw : w ≠ []) (ws : List (List Char)) :
    (joinWith sep (w :: ws)).head? = w.head? := by
  cases w with
  | nil => exact absurd rfl hw
  | cons c w => cases ws <;> rfl

theorem getLast?_joinWith {sep : List Char} {ws : List (List Char)} (h : ∀ w ∈ ws, w ≠ []) :
    (joinWith sep ws).getLast? = ws.getLast?.bind List.getLast? := by
  induction ws with
  | nil => rfl
  | cons w ws ih =>
    cases ws with
    | nil => rfl
    | cons v ws =>
      have hrest := ih fun x hx => h x (List.mem_cons_of_mem w hx)
      obtain ⟨last, hlast⟩ : ∃ last, (v :: ws).getLast? = some last := by
        simp [List.getLast?_cons]
      have hne := h last (List.mem_cons_of_mem w (List.mem_of_getLast? hlast))
      obtain ⟨c, hc⟩ : ∃ c, last.getLast? = some c :=
        Option.isSome_iff_exists.1 (by simp [List.getLast?_isSome, hne])
      have hend : (joinWith sep (v :: ws)).getLast? = some c := by
        rw [hrest, hlast]
        exact hc
      rw [joinWith, List.getLast?_append, hend, List.getLast?_cons_cons, hlast]
      exact hc.symm

theorem trimEnd_eq_self {cs : List Char} (h : ∀ c, cs.getLast? = some c → isBlank c = false) :
    trimEnd cs = cs := by
  rw [← List.head?_reverse] at h
  have hend : cs.reverse.dropWhile isBlank = cs.reverse := by
    cases hr : cs.reverse with
    | nil => rfl
    | cons c cs' => simp [h c (by rw [hr]; rfl)]
  rw [trimEnd, hend, List.reverse_reverse]

theorem trim_eq_self {cs : List Char} (h : ∀ c, cs.head? = some c → isBlank c = false)
    (h' : ∀ c, cs.getLast? = some c → isBlank c = false) : trim cs = cs := by
  have hstart : trimStart cs = cs := by
    cases cs with
    | nil => rfl
    | cons c cs => simp [trimStart, h c rfl]
  rw [trim, hstart, trimEnd_eq_self h']

theorem IsWord.trim_eq {w : List Char} (h : IsWord w) : trim w = w :=
  trim_eq_self (fun c hc => h.2 c (List.mem_of_head? hc)) fun c hc =>
    h.2 c (List.mem_of_getLast? hc)

theorem not_mem_of_isBlank {cs : List Char} (h : ∀ c ∈ cs, isBlank c = false) : '\n' ∉ cs :=
  fun hmem => absurd (h _ hmem) (by decide)

theorem trim_joinWith {ws : List (List Char)} (h : ∀ w ∈ ws, IsWord w) :
    trim (joinWith [' '] ws) = joinWith [' '] ws := by
  refine trim_eq_self (fun c hc => ?_) fun c hc => ?_
  · cases ws with
    | nil => exact absurd hc (by simp [joinWith])
    | cons w ws =>
      have hw := h w List.mem_cons_self
      rw [head?_joinWith _ hw.1] at hc
      exact hw.2 c (List.mem_of_head? hc)
  · rw [getLast?_joinWith fun w hw => (h w hw).1] at hc
    obtain ⟨w, hw, hlast⟩ := Option.bind_eq_some_iff.1 hc
    exact (h w (List.mem_of_getLast? hw)).2 c (List.mem_of_getLast? hlast)

theorem joinWith_ne_nil {sep : List Char} {ws : List (List Char)} (hne : ws ≠ [])
    (h : ∀ w ∈ ws, w ≠ []) : joinWith sep ws ≠ [] := by
  cases ws with
  | nil => exact absurd rfl hne
  | cons w ws =>
    intro heq
    have hhead := head?_joinWith sep (h w List.mem_cons_self) ws
    rw [heq] at hhead
    exact h w List.mem_cons_self (by simpa using hhead.symm)

theorem mem_joinWith {sep : List Char} {ws : List (List Char)} {c : Char}
    (h : c ∈ joinWith sep ws) : c ∈ sep ∨ ∃ w ∈ ws, c ∈ w := by
  induction ws with
  | nil => exact absurd h (by simp [joinWith])
  | cons w ws ih =>
    cases ws with
    | nil => exact .inr ⟨w, List.mem_cons_self, h⟩
    | cons v ws =>
      rw [joinWith, List.mem_append, List.mem_append] at h
      rcases h with (hw | hsep) | hrest
      · exact .inr ⟨w, List.mem_cons_self, hw⟩
      · exact .inl hsep
      · exact (ih hrest).imp_right fun ⟨x, hx, hc⟩ => ⟨x, List.mem_cons_of_mem w hx, hc⟩

end Text

/-! ### Numbers -/

namespace Numeral

theorem isDigit_decimal {n : Nat} {c : Char} (h : c ∈ decimal n) : c.isDigit = true :=
  Nat.isDigit_of_mem_toDigits (by decide) (by decide) h

theorem toNat_of_isDigit {c : Char} (h : c.isDigit = true) : 48 ≤ c.toNat ∧ c.toNat ≤ 57 := by
  simpa [Char.isDigit, UInt32.le_iff_toNat_le] using h

theorem isWord_decimal (n : Nat) : Text.IsWord (decimal n) := by
  refine ⟨Nat.toDigits_ne_nil, fun c hc => ?_⟩
  have hrange := toNat_of_isDigit (isDigit_decimal hc)
  simp only [Text.isBlank, Text.blankRanges, List.any_eq_false, Bool.and_eq_true,
    decide_eq_true_eq]
  simp
  omega

theorem digit?_of_isDigit {c : Char} (h : c.isDigit = true) : digit? 10 c = some (c.toNat - 48) := by
  have hrange := toNat_of_isDigit h
  have hdigit : '0' ≤ c ∧ c ≤ '9' := by
    simp only [Char.le_def, UInt32.le_iff_toNat_le]
    exact hrange
  have hlt : c.toNat - 48 < 10 := by omega
  simp [digit?, hdigit, hlt]

/-- Digits are read up to the bound; each one makes the number larger, so that the check at each
character is a check of the result. -/
theorem answers_accumulate (bound : Nat) (outside : Fault) {cs : List Char}
    (h : ∀ c ∈ cs, c.isDigit = true) {sum : Nat} (hsum : sum < bound) :
    Answers (accumulate 10 bound outside sum cs) (Nat.ofDigitChars 10 cs sum < bound)
      (Nat.ofDigitChars 10 cs sum) := by
  induction cs generalizing sum with
  | nil => exact (Answers.of_ok sum).congr (by simp [hsum])
  | cons c cs ih =>
    have hnext : Nat.ofDigitChars 10 (c :: cs) sum =
        Nat.ofDigitChars 10 cs (sum * 10 + (c.toNat - 48)) := by
      rw [Nat.ofDigitChars_cons, Nat.mul_comm]
      rfl
    rw [accumulate, digit?_of_isDigit (h c List.mem_cons_self), hnext]
    simp only
    split
    · next hlt => exact ih (fun d hd => h d (List.mem_cons_of_mem c hd)) hlt
    · next hge =>
      refine (Answers.of_error outside _).congr ?_
      have hgrow : sum * 10 + (c.toNat - 48) ≤
          Nat.ofDigitChars 10 cs (sum * 10 + (c.toNat - 48)) := by
        rw [Nat.ofDigitChars_eq_ofDigitChars_zero]
        exact Nat.le_trans (Nat.le_mul_of_pos_left _ (Nat.pow_pos (by decide)))
          (Nat.le_add_right _ _)
      simp only [false_iff]
      omega

theorem answers_unsigned {bound : Nat} (hbound : 0 < bound) (n : Nat) :
    Answers (unsigned 10 bound (decimal n)) (n < bound) n := by
  have hdigits : ∀ c ∈ decimal n, c.isDigit = true := fun c hc => isDigit_decimal hc
  have hplus : ∀ c ∈ decimal n, c ≠ '+' := fun c hc heq => by
    have := hdigits c hc
    rw [heq] at this
    exact absurd this (by decide)
  have hread : unsigned 10 bound (decimal n) = accumulate 10 bound .tooLarge 0 (decimal n) := by
    have hne : decimal n ≠ [] := Nat.toDigits_ne_nil
    generalize decimal n = cs at hplus hne ⊢
    match cs with
    | [] => exact absurd rfl hne
    | [c] => simp [unsigned, hplus c List.mem_cons_self]
    | c :: d :: cs => simp [unsigned, hplus c List.mem_cons_self]
  have h := answers_accumulate bound .tooLarge hdigits hbound
  rw [← hread, decimal, Nat.ofDigitChars_ten_toDigits] at h
  exact h

end Numeral
end DiagramCompiler
