import DiagramCompiler.Proofs.MadeDumps
import DiagramCompiler.Proofs.ReadDumps

/-! Clauses cut out of a stream of integers.
A reader hands out one clause at a time and loads a line of integers whenever it runs out of them:
a clause may lie across several lines, and one line may hold parts of several clauses. The clauses
are nevertheless those of the whole stream: all integers that are left are put one after the other
and cut at the zeros, and a last piece that no zero ends is a clause unless it is empty. -/
namespace DiagramCompiler

namespace Text

variable {α : Type} [DecidableEq α] {sep : α}

theorem splitEnded_of_not_mem {run : List α} (h : sep ∉ run) (hne : run ≠ []) :
    splitEnded sep run = [run] := by
  induction run with
  | nil => exact absurd rfl hne
  | cons c run ih =>
    have hc : c ≠ sep := fun heq => h (heq ▸ List.mem_cons_self)
    cases run with
    | nil => simp [splitEnded, hc]
    | cons d run =>
      have hrest := ih (fun hmem => h (.tail _ hmem)) (by simp)
      rw [splitEnded.eq_def]
      simp only [if_neg hc, hrest]

end Text

namespace Dimacs

/-- What an integer stands for in a clause line, unless it is out of range. -/
def Token.ofInt? (i : Int) : Option Token :=
  if i = 0 then some .stop else (Literal.ofInt? i).map .literal

/-- The clauses of some tokens, if some literals of the first one are known. -/
def cut : List Literal → List Token → List Clause
  | known, [] => if known = [] then [] else [.ofLiterals known]
  | known, .stop :: tokens => .ofLiterals known :: cut [] tokens
  | known, .literal l :: tokens => cut (known ++ [l]) tokens

theorem cut_of_some {tokens rest : List Token} (h : (Reader.takeLiterals tokens).2 = some rest)
    (known : List Literal) (more : List Token) :
    cut known (tokens ++ more) =
      .ofLiterals (known ++ (Reader.takeLiterals tokens).1) :: cut [] (rest ++ more) := by
  fun_induction Reader.takeLiterals tokens generalizing known with
  | case1 => exact absurd h (by simp)
  | case2 tokens =>
    obtain rfl := Option.some.inj h
    rw [List.cons_append, cut, List.append_nil]
  | case3 l tokens ih =>
    rw [List.cons_append, cut, ih h, List.append_assoc, List.singleton_append]

theorem cut_of_none {tokens : List Token} (h : (Reader.takeLiterals tokens).2 = none)
    (known : List Literal) (more : List Token) :
    cut known (tokens ++ more) = cut (known ++ (Reader.takeLiterals tokens).1) more := by
  fun_induction Reader.takeLiterals tokens generalizing known with
  | case1 => rw [List.nil_append, List.append_nil]
  | case2 tokens => exact absurd h (by simp)
  | case3 l tokens ih =>
    rw [List.cons_append, cut, ih h, List.append_assoc, List.singleton_append]

theorem ofInts?_of_forall₂ {is : List Int} {ls : List Literal}
    (h : List.Forall₂ (fun i l => Literal.ofInt? i = some l) is ls) :
    Clause.ofInts? is = some (.ofLiterals ls) := by
  have hall : is.mapM Literal.ofInt? = some ls := by
    induction h with
    | nil => rfl
    | cons hfirst _ ih => rw [List.mapM_cons, hfirst, ih]; rfl
  rw [Clause.ofInts?, hall]
  rfl

theorem cut_of_ofInt? {known : List Literal} {begun : List Int} {tokens : List Token}
    {is : List Int} (hknown : List.Forall₂ (fun i l => Literal.ofInt? i = some l) begun known)
    (hzero : 0 ∉ begun) (h : List.Forall₂ (fun i t => Token.ofInt? i = some t) is tokens) :
    List.Forall₂ (fun piece c => Clause.ofInts? piece = some c) (Text.splitEnded 0 (begun ++ is))
      (cut known tokens) := by
  induction h generalizing begun known with
  | nil =>
    rw [List.append_nil, cut]
    cases hknown with
    | nil => exact .nil
    | cons hfirst hrest =>
      rw [Text.splitEnded_of_not_mem hzero (by simp), if_neg (by simp)]
      exact .cons (ofInts?_of_forall₂ (.cons hfirst hrest)) .nil
  | @cons i token is tokens htoken _ ih =>
    rw [Token.ofInt?] at htoken
    split at htoken
    · next hi =>
      obtain rfl := Option.some.inj htoken
      rw [hi, Text.splitEnded_append hzero, cut]
      exact .cons (ofInts?_of_forall₂ hknown) (@ih [] [] .nil List.not_mem_nil)
    · next hi =>
      obtain ⟨l, hl, rfl⟩ := Option.map_eq_some_iff.1 htoken
      rw [← List.singleton_append, ← List.append_assoc, cut]
      refine ih (List.rel_append hknown (.cons hl .nil)) fun hmem => ?_
      rcases List.mem_append.1 hmem with hmem | hmem
      · exact hzero hmem
      · exact hi (List.mem_singleton.1 hmem).symm

namespace Reader

def drain (r : Reader) : Except Fault (List Token) × Reader :=
  match _h : (r.withTokens []).refill with
  | (.error fault, r') => (.error fault, r')
  | (.ok false, r') => (.ok r.tokens, r')
  | (.ok true, r') =>
    match r'.drain with
    | (.ok tokens, r'') => (.ok (r.tokens ++ tokens), r'')
    | (.error fault, r'') => (.error fault, r'')
termination_by r.pending.length
decreasing_by exact (pending_refill_lt _h :)

variable {r r' r'' : Reader} {fault : Fault}

theorem drain_of_error (h : (r.withTokens []).refill = (.error fault, r')) :
    r.drain = (.error fault, r') := by
  rw [drain]
  split <;> simp_all

theorem drain_of_end (h : (r.withTokens []).refill = (.ok false, r')) :
    r.drain = (.ok r.tokens, r') := by
  rw [drain]
  split <;> simp_all

theorem drain_of_line (h : (r.withTokens []).refill = (.ok true, r')) :
    r.drain = (r'.drain.1.map (r.tokens ++ ·), r'.drain.2) := by
  rw [drain]
  split
  · simp_all
  · simp_all
  · next r₁ h₁ =>
    obtain rfl : r₁ = r' := by rw [h] at h₁; exact (congrArg Prod.snd h₁).symm
    split <;> next hrest => rw [hrest]; rfl

/-- Tokens that are at hand come before those of the lines that are left. -/
theorem drain_eq (r : Reader) :
    r.drain = ((r.withTokens []).drain.1.map (r.tokens ++ ·), (r.withTokens []).drain.2) := by
  cases hfill : (r.withTokens []).refill with
  | mk answer r' =>
    rcases answer with fault | _ | _
    · rw [drain_of_error hfill, drain_of_error (r := r.withTokens []) hfill]
      rfl
    · rw [drain_of_end hfill, drain_of_end (r := r.withTokens []) hfill]
      simp [Except.map]
    · rw [drain_of_line hfill, drain_of_line (r := r.withTokens []) hfill]
      cases r'.drain.1 <;> simp [Except.map]

theorem preamble_scan (lines : List Bytes) (r : Reader) :
    (scan lines r).2.preamble = r.preamble := by
  fun_induction scan lines r with
  | case1 => rfl
  | case2 => rfl
  | case3 _ _ _ _ _ _ _ ih => exact ih
  | case4 _ _ _ _ _ _ _ _ ih => rw [ih, describe]; split <;> rfl
  | case5 => rfl

theorem exhausted_scan (lines : List Bytes) (r : Reader) :
    (scan lines r).2.exhausted = r.exhausted := by
  fun_induction scan lines r with
  | case1 => rfl
  | case2 => rfl
  | case3 _ _ _ _ _ _ _ ih => exact ih
  | case4 _ _ _ _ _ _ _ _ ih => rw [ih, describe]; split <;> rfl
  | case5 => rfl

theorem preamble_nextLine (r : Reader) : r.nextLine.2.preamble = r.preamble := preamble_scan _ _

theorem exhausted_nextLine (r : Reader) : r.nextLine.2.exhausted = r.exhausted :=
  exhausted_scan _ _

theorem preamble_refill (r : Reader) : r.refill.2.preamble = r.preamble := by
  have first := preamble_nextLine r
  rw [refill]
  split
  · rfl
  · split
    · next h => rw [h] at first; exact first
    · next h => rw [h] at first; exact first
    · next h => rw [h] at first; exact first
    · next h => rw [h] at first; split <;> exact first
    · next r' h =>
      rw [h] at first
      have second := preamble_nextLine r'.finish
      split
      · next h' => rw [h'] at second; exact second.trans first
      · next h' => rw [h'] at second; exact second.trans first
      · next h' => rw [h'] at second; split <;> exact second.trans first

/-- Once a line of integers is asked for in vain, there is none any more. -/
theorem exhausted_of_refill (h : r.refill = (.ok false, r')) : r'.exhausted = true := by
  rw [refill] at h
  split at h
  · next hexhausted => cases h; exact hexhausted
  · split at h
    · cases h
    · cases h; rfl
    · cases h
    · split at h <;> cases h
    · next r₁ _ =>
      have second := exhausted_nextLine r₁.finish
      split at h
      · cases h
      · next h' => cases h; rw [h'] at second; exact second
      · next h' =>
        split at h
        · cases h; rw [h'] at second; exact second
        · cases h

theorem withTokens_of_tokens {tokens : List Token} (h : r.tokens = tokens) :
    r.withTokens tokens = r := h ▸ rfl

theorem gather_of_error (h : (takeLiterals r.tokens).2 = none)
    (hfill : (r.withTokens []).refill = (.error fault, r')) (known : List Literal) :
    r.gather known = (.error fault, r') := by
  rw [gather]
  split
  · next hsome => exact absurd (hsome.symm.trans h) (by simp)
  · split <;> simp_all

theorem gather_of_last (h : (takeLiterals r.tokens).2 = none)
    (hfill : (r.withTokens []).refill = (.ok false, r')) (known : List Literal) :
    r.gather known =
      (.ok (if known ++ (takeLiterals r.tokens).1 = [] then none
        else some (.ofLiterals (known ++ (takeLiterals r.tokens).1))), r') := by
  rw [gather]
  split
  · next hsome => exact absurd (hsome.symm.trans h) (by simp)
  · split
    · simp_all
    · simp_all
    · simp_all; split <;> rfl

/-- All clauses that are left, if some literals of the first one are known. -/
def clausesFrom (known : List Literal) (r : Reader) : Except Fault (List Clause) × Reader :=
  match r.gather known with
  | (.error fault, r') => (.error fault, r')
  | (.ok none, r') => (.ok [], r')
  | (.ok (some c), r') => (r'.clauses.1.map (c :: ·), r'.clauses.2)

theorem clauses_eq_clausesFrom (hp : r.preamble.isSome) : r.clauses = r.clausesFrom [] := by
  have hnext : r.nextClause = r.gather [] := by
    rw [nextClause, if_neg (by simpa using Option.isSome_iff_ne_none.1 hp)]
  rw [clauses, clausesFrom, hnext]
  split
  · simp_all
  · simp_all
  · next c r₁ h =>
    simp only [h]
    split <;> next hrest => rw [hrest]; rfl

theorem nextClause_of_refill_false (hp : r.preamble.isSome)
    (hfill : (r.withTokens []).refill = (.ok false, r')) : r'.nextClause = (.ok none, r') := by
  have hp' : r'.preamble.isSome := by
    have hfilled := preamble_refill (r.withTokens [])
    rw [hfill] at hfilled
    exact hfilled ▸ hp
  have htokens : r'.tokens = [] := tokens_refill_false hfill
  have hover : r'.refill = (.ok false, r') := if_pos (exhausted_of_refill hfill)
  rw [nextClause, if_neg (by simpa using Option.isSome_iff_ne_none.1 hp')]
  exact gather_of_end (by rw [htokens]; rfl) (by rw [withTokens_of_tokens htokens, hover])

/-- Handing out clauses one by one comes to the same as cutting all tokens that are left. -/
theorem clausesFrom_eq (known : List Literal) (r : Reader) (hp : r.preamble.isSome) :
    r.clausesFrom known = (r.drain.1.map (cut known), r.drain.2) := by
  have hfilled := preamble_refill (r.withTokens [])
  have hkept : (r.withTokens []).preamble = r.preamble := rfl
  cases htake : (takeLiterals r.tokens).2 with
  | some rest =>
    have hrest := clausesFrom_eq [] (r.withTokens rest) hp
    have hlater : (r.withTokens rest).drain =
        ((r.withTokens []).drain.1.map (rest ++ ·), (r.withTokens []).drain.2) := drain_eq _
    rw [hlater] at hrest
    rw [clausesFrom, gather_of_some htake, drain_eq r]
    simp only [clauses_eq_clausesFrom (r := r.withTokens rest) hp, hrest]
    cases (r.withTokens []).drain.1 with
    | error fault => rfl
    | ok tokens =>
      simp only [Except.map, cut_of_some htake]
  | none =>
    cases hfill : (r.withTokens []).refill with
    | mk answer r' =>
      rw [hfill, hkept] at hfilled
      rcases answer with fault | _ | _
      · rw [clausesFrom, gather_of_error htake hfill, drain_of_error hfill]
        rfl
      · have hcut := cut_of_none htake known []
        rw [List.append_nil, cut] at hcut
        rw [clausesFrom, gather_of_last htake hfill, drain_of_end hfill]
        simp only [Except.map, hcut]
        by_cases heq : known ++ (takeLiterals r.tokens).1 = []
        · simp only [if_pos heq]
        · have hnone := nextClause_of_refill_false hp hfill
          simp only [if_neg heq, clauses_of_none hnone]
      · have hnext := clausesFrom_eq (known ++ (takeLiterals r.tokens).1) r' (hfilled ▸ hp)
        rw [clausesFrom, gather_of_refill htake hfill, ← clausesFrom, hnext, drain_of_line hfill]
        cases r'.drain.1 with
        | error fault => rfl
        | ok tokens => simp only [Except.map, cut_of_none htake]
termination_by (r.pending.length, r.tokens.length)
decreasing_by
  · exact .left _ _ (pending_refill_lt hfill :)
  · exact .right _ (length_takeLiterals_lt htake)

end Reader
end Dimacs
end DiagramCompiler
