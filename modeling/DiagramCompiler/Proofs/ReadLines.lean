import DiagramCompiler.Proofs.ProblemGrammar

/-! Lines that are read.
A reader passes over the lines without content, keeping the names that comments give to variables,
and tells from the first character of the next line what kind of line it is. After the problem line
it loads integers as long as the lines are lists of integers, and then knows that all is loaded
exactly if the lines end as the grammar allows. -/
namespace DiagramCompiler
namespace Dimacs

/-! ### Lines -/

theorem meaning_cases (text : List Char) :
    ¬ HasContent text ∧ meaning text = .nothing ∧ comment? text = none ∨
      (∃ rest, ¬ HasContent text ∧ meaning text = .comment rest ∧ comment? text = some rest) ∨
      ∃ line, HasContent text ∧ meaning text = .content line ∧ comment? text = none := by
  unfold meaning
  split
  · exact .inl ⟨by simp [HasContent], rfl, rfl⟩
  · next rest => exact .inr (.inl ⟨rest, by simp [HasContent], rfl, rfl⟩)
  · exact .inr (.inr ⟨_, by simp [HasContent], rfl, rfl⟩)
  · exact .inr (.inr ⟨_, by simp [HasContent], rfl, rfl⟩)
  · next hnil hcomment _ _ =>
    have hcontent : HasContent text := by
      refine ⟨hnil, fun hhead => ?_⟩
      obtain ⟨rest, rfl⟩ := List.head?_eq_some_iff.1 hhead
      exact hcomment rest rfl
    have hnone : comment? text = none := by
      unfold comment?
      split
      · exact absurd rfl (hcomment _)
      · rfl
    exact .inr (.inr ⟨_, hcontent, rfl, hnone⟩)

theorem exists_content {text : List Char} (h : HasContent text) :
    ∃ line, meaning text = .content line ∧ comment? text = none := by
  rcases meaning_cases text with ⟨hnot, -⟩ | ⟨_, hnot, -⟩ | ⟨line, -, hline⟩
  · exact absurd h hnot
  · exact absurd h hnot
  · exact ⟨line, hline⟩

theorem meaning_eq_trailer_iff {text : List Char} :
    meaning text = .content .trailer ↔ text = ['%'] := by
  refine ⟨fun h => ?_, fun h => h ▸ rfl⟩
  unfold meaning at h
  split at h <;> first | rfl | cases h

theorem meaning_eq_clause_iff {text other : List Char} :
    meaning text = .content (.clause other) ↔
      HasContent text ∧ text.head? ≠ some 'p' ∧ text ≠ ['%'] ∧ other = text := by
  constructor
  · intro h
    have hcontent : HasContent text := by
      rcases meaning_cases text with ⟨-, hother, -⟩ | ⟨_, -, hother, -⟩ | ⟨_, hcontent, -⟩
      · exact absurd (h.symm.trans hother) (by simp)
      · exact absurd (h.symm.trans hother) (by simp)
      · exact hcontent
    unfold meaning at h
    split at h
    · cases h
    · cases h
    · cases h
    · cases h
    · next hproblem htrailer =>
      refine ⟨hcontent, fun hhead => ?_, htrailer, ?_⟩
      · obtain ⟨rest, rfl⟩ := List.head?_eq_some_iff.1 hhead
        exact hproblem rest rfl
      · injection h with h
        injection h with h
        exact h.symm
  · rintro ⟨⟨hnil, hcomment⟩, hproblem, htrailer, rfl⟩
    unfold meaning
    split <;> first | rfl | (exfalso; simp_all)

theorem meaning_eq_problem {text other : List Char} (h : meaning text = .content (.problem other)) :
    other = text := by
  unfold meaning at h
  split at h <;> first | (cases h; rfl) | cases h

/-! ### Integers -/

theorem signed_range {bound : Nat} {word : List Char} {i : Int} (hbound : 0 < bound)
    (h : Numeral.signed bound word = .ok i) : -(bound : Int) ≤ i ∧ i < bound := by
  have hnatural {fault : Numeral.Fault} {digits : List Char}
      (hdigits : (Numeral.accumulate 10 bound fault 0 digits).map Int.ofNat = .ok i) :
      -(bound : Int) ≤ i ∧ i < bound := by
    cases hvalue : Numeral.accumulate 10 bound fault 0 digits with
    | error other => rw [hvalue] at hdigits; cases hdigits
    | ok n =>
      rw [hvalue] at hdigits
      obtain rfl := Except.ok.inj hdigits
      have hlt := Numeral.lt_of_accumulate hvalue hbound
      exact ⟨by simp, by simpa using hlt⟩
  match word with
  | [] => cases h
  | [c] => exact hnatural h
  | c :: d :: digits =>
    simp only [Numeral.signed] at h
    split at h
    · cases hvalue : Numeral.accumulate 10 (bound + 1) .tooSmall 0 (d :: digits) with
      | error other => rw [hvalue] at h; cases h
      | ok n =>
        rw [hvalue] at h
        obtain rfl := Except.ok.inj h
        have hlt := Numeral.lt_of_accumulate hvalue (Nat.succ_pos bound)
        exact ⟨by simp; omega, by simp; omega⟩
    · exact hnatural h

theorem parseToken_eq_ok_iff {n : Nat} {word : List Char} {token : Token} :
    Reader.parseToken n word = .ok token ↔
      ∃ i, IsInteger word i ∧ Token.ofInt? i = some token := by
  rw [Reader.parseToken]
  cases hword : Numeral.int32 word with
  | error fault => simp [IsInteger, hword]
  | ok i =>
    have hrange := signed_range (by decide) hword
    have hi : (∃ j, IsInteger word j ∧ Token.ofInt? j = some token) ↔
        i ≠ -2147483648 ∧ Token.ofInt? i = some token := by
      constructor
      · rintro ⟨j, ⟨hj, hne⟩, htoken⟩
        obtain rfl := Except.ok.inj (hword.symm.trans hj)
        exact ⟨hne, htoken⟩
      · exact fun ⟨hne, htoken⟩ => ⟨i, ⟨hword, hne⟩, htoken⟩
    rw [hi, Token.ofInt?]
    by_cases hzero : i = 0
    · simp [hzero]
    · by_cases hmagnitude : i.natAbs < 2147483648
      · have hne : i ≠ -2147483648 := by omega
        simp [hzero, hne, Literal.ofInt?, hmagnitude]
      · have heq : i = -2147483648 := by omega
        simp [heq, Literal.ofInt?]

theorem parseTokens_eq_ok_iff {n : Nat} {ws : List (List Char)} {tokens : List Token} :
    ws.mapM (Reader.parseToken n) = .ok tokens ↔
      ∃ is, List.Forall₂ IsInteger ws is ∧
        List.Forall₂ (fun i t => Token.ofInt? i = some t) is tokens := by
  constructor
  · intro h
    have hall := forall₂_of_mapM h
    clear h
    induction hall with
    | nil => exact ⟨[], .nil, .nil⟩
    | cons hfirst _ ih =>
      obtain ⟨i, hi, htoken⟩ := parseToken_eq_ok_iff.1 hfirst
      obtain ⟨is, his, htokens⟩ := ih
      exact ⟨i :: is, .cons hi his, .cons htoken htokens⟩
  · rintro ⟨is, his, htokens⟩
    induction his generalizing tokens with
    | nil => cases htokens; rfl
    | cons hi _ ih =>
      cases htokens with
      | cons htoken htokens =>
        rw [List.mapM_cons, parseToken_eq_ok_iff.2 ⟨_, hi, htoken⟩, ih htokens]
        rfl

theorem exists_tokens {ws : List (List Char)} {is : List Int} (h : List.Forall₂ IsInteger ws is) :
    ∃ tokens, List.Forall₂ (fun i t => Token.ofInt? i = some t) is tokens := by
  induction h with
  | nil => exact ⟨[], .nil⟩
  | @cons word i ws is hi _ ih =>
    obtain ⟨tokens, htokens⟩ := ih
    have hrange := signed_range (by decide) hi.1
    have hne := hi.2
    obtain ⟨token, htoken⟩ : ∃ token, Token.ofInt? i = some token := by
      rw [Token.ofInt?]
      by_cases hzero : i = 0
      · exact ⟨.stop, if_pos hzero⟩
      · have hmagnitude : i.natAbs < 2147483648 := by omega
        exact ⟨.literal ⟨i, hmagnitude⟩, by simp [hzero, Literal.ofInt?, hmagnitude]⟩
    exact ⟨token :: tokens, .cons htoken htokens⟩

def withComment (names : Dictionary Nat String) (comment : List Char) : Dictionary Nat String :=
  match description? comment with
  | some (var, name) => names.insert var name
  | none => names

def described (names : Dictionary Nat String) (texts : List (List Char)) :
    Dictionary Nat String :=
  (texts.filterMap comment?).foldl withComment names

theorem described_append (names : Dictionary Nat String) (texts texts' : List (List Char)) :
    described (described names texts) texts' = described names (texts ++ texts') := by
  simp [described]

namespace Reader

def pass (r : Reader) (texts : List (List Char)) (pending : List Bytes) : Reader :=
  { r with
    pending := pending
    line := r.line + texts.length
    descriptions := described r.descriptions texts }

@[simp] theorem pending_pass (r : Reader) (texts : List (List Char)) (pending : List Bytes) :
    (r.pass texts pending).pending = pending := rfl

@[simp] theorem exhausted_withTokens (r : Reader) (tokens : List Token) :
    (r.withTokens tokens).exhausted = r.exhausted := rfl

theorem pass_pass (r : Reader) (texts texts' : List (List Char)) (pending pending' : List Bytes) :
    (r.pass texts pending).pass texts' pending' = r.pass (texts ++ texts') pending' := by
  simp [pass, described_append, Nat.add_assoc]

variable {r r' : Reader} {raw : Bytes} {rest : List Bytes} {text : List Char} {line : Line}

theorem scan_of_not_content (hraw : line? raw = some text) (h : ¬ HasContent text) :
    scan (raw :: rest) r = scan rest (r.pass [text] rest) := by
  obtain ⟨s, hs, rfl⟩ := Option.map_eq_some_iff.1 hraw
  rw [scan, hs]
  rcases meaning_cases (Text.trim s.toList) with ⟨-, hmeaning, hcomment⟩ |
    ⟨comment, -, hmeaning, hcomment⟩ | ⟨_, hcontent, -⟩
  · simp only [hmeaning]
    simp [pass, hcomment, described]
  · simp only [hmeaning, describe]
    have hpass : r.pass [Text.trim s.toList] rest =
        { r with
          pending := rest
          line := r.line + 1
          descriptions := withComment r.descriptions comment } := by
      simp [pass, hcomment, described]
    rw [hpass, withComment]
    split <;> simp_all
  · exact absurd hcontent h

theorem scan_of_content (hraw : line? raw = some text) (h : meaning text = .content line) :
    scan (raw :: rest) r = (.ok (some line), r.pass [text] rest) := by
  obtain ⟨s, hs, rfl⟩ := Option.map_eq_some_iff.1 hraw
  have hcomment : comment? (Text.trim s.toList) = none := by
    rcases meaning_cases (Text.trim s.toList) with ⟨-, hother, -⟩ | ⟨_, -, hother, -⟩ |
      ⟨_, -, -, hnone⟩
    · exact absurd (h.symm.trans hother) (by simp)
    · exact absurd (h.symm.trans hother) (by simp)
    · exact hnone
  rw [scan, hs]
  simp only [h]
  simp [pass, hcomment, described]

theorem scan_append {read : List Bytes} {texts : List (List Char)}
    (h : read.map line? = texts.map some) (hnone : contents texts = []) (r : Reader) :
    scan (read ++ rest) r = scan rest (r.pass texts rest) := by
  induction read generalizing texts r with
  | nil =>
    obtain rfl : texts = [] := by simpa using h.symm
    cases rest with
    | nil => rfl
    | cons raw rest => rw [List.nil_append, scan, scan]; rfl
  | cons raw read ih =>
    cases texts with
    | nil => exact absurd h (by simp)
    | cons text texts =>
      obtain ⟨hraw, hread⟩ := List.cons.inj h
      have hnot := contents_eq_nil hnone List.mem_cons_self
      have hrest : contents texts = [] := by
        rwa [contents, List.filter_cons_of_neg (by simpa using hnot)] at hnone
      rw [List.cons_append, scan_of_not_content hraw hnot, ih hread hrest, pass_pass]
      rfl

theorem nextLine_of_content {texts : List (List Char)} {unread : List (Option (List Char))}
    (h : r.pending.map line? = texts.map some ++ some text :: unread)
    (hnone : contents texts = []) (hline : meaning text = .content line) :
    ∃ rest, rest.map line? = unread ∧
      r.nextLine = (.ok (some line), r.pass (texts ++ [text]) rest) := by
  obtain ⟨read, other, hpending, hread, hother⟩ := List.map_eq_append_iff.1 h
  obtain ⟨raw, rest, rfl, hraw, hrest⟩ := List.map_eq_cons_iff.1 hother
  refine ⟨rest, hrest, ?_⟩
  rw [nextLine, hpending, scan_append hread hnone, scan_of_content hraw hline, pass_pass]

theorem nextLine_of_contents {texts rest : List (List Char)} {unread : List (Option (List Char))}
    (hlines : r.pending.map line? = texts.map some ++ unread)
    (hcontents : contents texts = text :: rest) (hline : meaning text = .content line) :
    ∃ before after pending, texts = before ++ text :: after ∧ contents after = rest ∧
      pending.map line? = after.map some ++ unread ∧
        r.nextLine = (.ok (some line), r.pass (before ++ [text]) pending) := by
  obtain ⟨before, after, rfl, hbefore, -, hafter⟩ := contents_eq_cons_iff.1 hcontents
  have hhere : r.pending.map line? =
      before.map some ++ some text :: (after.map some ++ unread) := by simpa using hlines
  obtain ⟨pending, hpending, hnext⟩ := nextLine_of_content hhere hbefore hline
  exact ⟨before, after, pending, rfl, hafter, hpending, hnext⟩

theorem nextLine_of_end {texts : List (List Char)} (h : r.pending.map line? = texts.map some)
    (hnone : contents texts = []) : r.nextLine = (.ok none, r.pass texts []) := by
  rw [nextLine, ← List.append_nil r.pending, scan_append h hnone]
  rfl

theorem scan_of_none (hraw : line? raw = none) :
    scan (raw :: rest) r = (.error (.unreadable (r.line + 1) .notText), { r with pending := rest })
    := by
  have htext : Bytes.text? raw = none := Option.map_eq_none_iff.1 hraw
  rw [scan, htext]

/-- What a reader can have found at its next line: a line with content or none, after lines without
content. -/
theorem exists_of_scan {lines : List Bytes} {found : Option Line}
    (h : scan lines r = (.ok found, r')) :
    ∃ texts, contents texts = [] ∧
      match found with
      | none => lines.map line? = texts.map some
      | some line => ∃ text, lines.map line? = texts.map some ++ some text :: r'.pending.map line? ∧
          HasContent text ∧ meaning text = .content line := by
  induction lines generalizing r with
  | nil =>
    rw [scan] at h
    cases h
    exact ⟨[], rfl, rfl⟩
  | cons raw rest ih =>
    cases hraw : line? raw with
    | none =>
      rw [scan_of_none hraw] at h
      cases h
    | some text =>
      by_cases htext : HasContent text
      · obtain ⟨line, hline, -⟩ := exists_content htext
        rw [scan_of_content hraw hline] at h
        cases h
        exact ⟨[], rfl, text, by simp [hraw], htext, hline⟩
      · rw [scan_of_not_content hraw htext] at h
        obtain ⟨texts, hnone, hfound⟩ := ih h
        refine ⟨text :: texts, ?_, ?_⟩
        · rwa [contents, List.filter_cons_of_neg (by simpa using htext)]
        · cases found with
          | none => simpa [hraw] using hfound
          | some line =>
            obtain ⟨other, hlines, hother⟩ := hfound
            exact ⟨other, by simp [hraw, hlines], hother⟩

/-! ### The lines after the problem line -/

/-- What the lines after the problem line spell, and which of them are read. -/
def Continues (lines : List (Option (List Char))) (texts : List (List Char)) (is : List Int) :
    Prop :=
  ∃ unread body lists ending, lines = texts.map some ++ unread ∧
    contents texts = body ++ ending ∧ List.Forall₂ IsIntegers body lists ∧
      Ending texts ending unread ∧ is = lists.flatten

theorem refill_of_trailer {found : Option Line} (hr : r.exhausted = false) {r₁ : Reader}
    (htrailer : r.nextLine = (.ok (some .trailer), r₁))
    (hnext : r₁.finish.nextLine = (.ok found, r'))
    (hfound : found = none ∨ found = some (.clause ['0'])) : r.refill = (.ok false, r') := by
  rw [refill, if_neg (by simp [hr]), htrailer]
  simp only [hnext]
  rcases hfound with rfl | rfl
  · rfl
  · simp

theorem refill_of_ending {texts : List (List Char)} {ending : List (List Char)}
    {unread : List (Option (List Char))} (hr : r.exhausted = false)
    (hlines : r.pending.map line? = texts.map some ++ unread) (hcontents : contents texts = ending)
    (hending : Ending texts ending unread) :
    ∃ r', r.refill = (.ok false, r') ∧
      r'.descriptions = described r.descriptions texts := by
  cases hending with
  | plain =>
    rw [List.append_nil] at hlines
    refine ⟨(r.pass texts []).finish, ?_, rfl⟩
    rw [refill, if_neg (by simp [hr]), nextLine_of_end hlines hcontents]
  | trailer =>
    obtain ⟨before, after, rest, rfl, hafter, hrest, hnext⟩ :=
      nextLine_of_contents hlines hcontents rfl
    rw [List.append_nil] at hrest
    have hend : (r.pass (before ++ [['%']]) rest).finish.nextLine = _ :=
      nextLine_of_end hrest hafter
    refine ⟨_, refill_of_trailer hr hnext hend (.inl rfl), ?_⟩
    exact (described_append _ _ _).trans (by simp)
  | closed hlast unread =>
    obtain ⟨before, after, rest, rfl, hafter, hrest, hnext⟩ :=
      nextLine_of_contents hlines hcontents rfl
    obtain ⟨between, later, rest', rfl, hlater, -, hnext'⟩ :=
      nextLine_of_contents (r := (r.pass (before ++ [['%']]) rest).finish) hrest hafter rfl
    have hwhole : ((before ++ ['%'] :: between ++ [['0']]) ++ later).getLast? = some ['0'] := by
      simpa only [List.append_assoc, List.cons_append, List.nil_append] using hlast
    obtain rfl := eq_nil_of_getLast? hwhole (by decide) hlater
    refine ⟨_, refill_of_trailer hr hnext hnext' (.inr rfl), ?_⟩
    exact (described_append _ _ _).trans (by simp)

theorem drain_of_continues {texts : List (List Char)} {is : List Int} (hr : r.exhausted = false)
    (h : Continues (r.pending.map line?) texts is) :
    ∃ tokens r', r.drain = (.ok (r.tokens ++ tokens), r') ∧
      List.Forall₂ (fun i t => Token.ofInt? i = some t) is tokens ∧
      r'.descriptions = described r.descriptions texts := by
  obtain ⟨unread, body, lists, ending, hlines, hcontents, hbody, hending, rfl⟩ := h
  induction hbody generalizing r texts with
  | nil =>
    obtain ⟨r', hfill, hdescriptions⟩ :=
      refill_of_ending (r := r.withTokens []) hr hlines hcontents hending
    exact ⟨[], r', by rw [drain_of_end hfill, List.append_nil], .nil, hdescriptions⟩
  | @cons text is body lists hintegers _ ih =>
    obtain ⟨-, -, -, -, htext, -⟩ := contents_eq_cons_iff.1 hcontents
    obtain ⟨tokens, htokens⟩ := exists_tokens hintegers.2
    have hmeaning : meaning text = .content (.clause text) :=
      meaning_eq_clause_iff.2 ⟨htext, hintegers.1, hintegers.ne_trailer, rfl⟩
    obtain ⟨before, after, rest, rfl, hafter, hrest, hnext⟩ :=
      nextLine_of_contents (r := r.withTokens []) hlines hcontents hmeaning
    have hfill : (r.withTokens []).refill =
        (.ok true, ((r.withTokens []).pass (before ++ [text]) rest).withTokens tokens) := by
      rw [refill, if_neg (by simp [hr]), hnext]
      simp only [parseTokens_eq_ok_iff.2 ⟨is, hintegers.2, htokens⟩]
    have hwhole : Ending ((before ++ [text]) ++ after) ending unread := by simpa using hending
    have hlater : Ending after ending unread := hwhole.of_append hafter
    obtain ⟨more, r', hdrain, hmore, hdescriptions⟩ :=
      ih (r := ((r.withTokens []).pass (before ++ [text]) rest).withTokens tokens) hr hrest hafter
        hlater
    refine ⟨tokens ++ more, r', ?_, List.rel_append htokens hmore, ?_⟩
    · rw [drain_of_line hfill, hdrain]
      simp [Except.map]
    · exact hdescriptions.trans ((described_append _ _ _).trans (by rw [List.append_assoc]; rfl))

theorem exists_of_refill_false (hr : r.exhausted = false) (h : r.refill = (.ok false, r')) :
    ∃ texts ending unread, r.pending.map line? = texts.map some ++ unread ∧
      contents texts = ending ∧ Ending texts ending unread := by
  rw [refill, if_neg (by simp [hr])] at h
  split at h
  · cases h
  · next r₁ hnext =>
    obtain ⟨texts, hnone, hlines⟩ := exists_of_scan hnext
    exact ⟨texts, [], [], by rw [List.append_nil]; exact hlines, hnone, .plain⟩
  · cases h
  · split at h <;> cases h
  · next r₁ hnext =>
    obtain ⟨texts, hnone, text, hlines, htext, hmeaning⟩ := exists_of_scan hnext
    obtain rfl := meaning_eq_trailer_iff.1 hmeaning
    split at h
    · cases h
    · next r₂ hnext' =>
      obtain ⟨texts', hnone', hlines'⟩ := exists_of_scan hnext'
      have hrest : r₁.pending.map line? = texts'.map some := hlines'
      refine ⟨texts ++ ['%'] :: texts', [['%']], [], ?_, ?_, .trailer⟩
      · simp [hlines, hrest]
      · exact contents_eq_cons_iff.2 ⟨texts, texts', rfl, hnone, htext, hnone'⟩
    · next line r₂ hnext' =>
      split at h
      · next hzero =>
        obtain ⟨texts', hnone', text', hlines', htext', hmeaning'⟩ := exists_of_scan hnext'
        obtain rfl : text' = ['0'] := by
          rw [hzero] at hmeaning'
          exact (meaning_eq_clause_iff.1 hmeaning').2.2.2.symm
        have hrest : r₁.pending.map line? =
            texts'.map some ++ some ['0'] :: r₂.pending.map line? := hlines'
        refine ⟨texts ++ ['%'] :: (texts' ++ [['0']]), [['%'], ['0']], r₂.pending.map line?, ?_, ?_,
          .closed ?_ _⟩
        · simp [hlines, hrest]
        · have hzeros : contents (texts' ++ [['0']]) = [['0']] :=
            contents_eq_cons_iff.2 ⟨texts', [], rfl, hnone', htext', rfl⟩
          exact contents_eq_cons_iff.2 ⟨texts, _, rfl, hnone, htext, hzeros⟩
        · rw [← List.cons_append, ← List.append_assoc, List.getLast?_concat]
      · cases h

theorem exists_of_refill_true (hr : r.exhausted = false) (h : r.refill = (.ok true, r')) :
    ∃ texts text is, r.pending.map line? = texts.map some ++ some text :: r'.pending.map line? ∧
      contents texts = [] ∧ HasContent text ∧ IsIntegers text is ∧ r'.exhausted = false := by
  have hkept := exhausted_nextLine r
  rw [refill, if_neg (by simp [hr])] at h
  split at h
  · cases h
  · cases h
  · cases h
  · next line r₁ hnext =>
    rw [hnext, hr] at hkept
    split at h
    · cases h
    · next tokens htokens =>
      cases h
      obtain ⟨texts, hnone, text, hlines, htext, hmeaning⟩ := exists_of_scan hnext
      obtain ⟨-, hproblem, -, rfl⟩ := meaning_eq_clause_iff.1 hmeaning
      obtain ⟨is, his, -⟩ := parseTokens_eq_ok_iff.1 htokens
      exact ⟨texts, line, is, hlines, hnone, htext, ⟨hproblem, his⟩, hkept⟩
  · split at h
    · cases h
    · cases h
    · split at h <;> cases h

theorem continues_of_drain {r r' : Reader} {tokens : List Token} (hr : r.exhausted = false)
    (h : r.drain = (.ok tokens, r')) :
    ∃ texts is, Continues (r.pending.map line?) texts is := by
  cases hfill : (r.withTokens []).refill with
  | mk answer r₁ =>
    rcases answer with fault | _ | _
    · rw [drain_of_error hfill] at h
      cases h
    · obtain ⟨texts, ending, unread, hlines, hcontents, hending⟩ :=
        exists_of_refill_false (r := r.withTokens []) hr hfill
      exact ⟨texts, [], unread, [], [], ending, hlines, hcontents, .nil, hending, rfl⟩
    · obtain ⟨before, text, is, hlines, hnone, htext, hintegers, hr₁⟩ :=
        exists_of_refill_true (r := r.withTokens []) hr hfill
      rw [drain_of_line hfill] at h
      obtain ⟨more, hmore⟩ : ∃ more, r₁.drain.1 = .ok more := by
        cases hrest : r₁.drain.1 with
        | error fault => rw [hrest] at h; cases h
        | ok more => exact ⟨more, rfl⟩
      obtain ⟨texts, others, unread, body, lists, ending, hrest, hcontents, hbody, hending, -⟩ :=
        continues_of_drain hr₁ (Prod.ext hmore rfl : r₁.drain = (.ok more, r₁.drain.2))
      refine ⟨before ++ text :: texts, _, unread, text :: body, is :: lists, ending, ?_, ?_,
        .cons hintegers hbody, ?_, rfl⟩
      · exact hlines.trans (by simp [hrest])
      · exact contents_eq_cons_iff.2 ⟨before, texts, rfl, hnone, htext, hcontents⟩
      · simpa using hending.append (before ++ [text])
termination_by r.pending.length
decreasing_by exact (pending_refill_lt hfill :)

end Reader

end Dimacs
end DiagramCompiler
