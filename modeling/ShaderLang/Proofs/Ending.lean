import ShaderLang.Proofs.Guarded

/-!
# Rules end

What follows for the runs of the rules from their being guarded. A run takes the tokens of a text
one after the other, and the end of the text at most once, just before it fails (`Runs.took`).
A rule is called behind a token that was taken or from a higher rule (`Calls.descends`), so each
call leaves fewer tokens, or as many to a lower rule, and every rule has a run in front of every
text (`Rule.exists_runs`). It has only one (`Runs.unique`).
-/

namespace ShaderLang.Grammar

namespace Cursor

variable {c d : Cursor} {ts us : List Token}

/-- Behind a token that is not the end of the text lies what taking it leads to. -/
theorem step_eq_ok_iff (h : c.current.kind.isEnd = false) : c.step = .ok d ↔ c.next? = some d := by
  unfold step next? Token.Stream.next
  rw [if_neg (by simp [h]), if_neg (by simp [h])]
  cases c.rest.pending with
  | nil => simp [Except.map]
  | cons result others => cases result <;> simp [Except.map]

theorem left_of_next? (h : c.next? = some d) : d.left < c.left := by
  obtain ⟨hlt, -⟩ := advance_gives h .expression
  exact hlt

theorem Takes.left_le (h : c.Takes ts d) : d.left ≤ c.left := by
  induction h with
  | nil => exact Nat.le_refl _
  | cons hnext _ ih => exact Nat.le_trans ih (Nat.le_of_lt (left_of_next? hnext))

theorem Takes.left_lt (h : c.Takes ts d) (hne : ts ≠ []) : d.left < c.left := by
  cases h with
  | nil => exact absurd rfl hne
  | cons hnext hts => exact Nat.lt_of_le_of_lt hts.left_le (left_of_next? hnext)

/-- Tokens that are taken from here on, one after the other. The end of the text may be the last
of them. -/
inductive Spends : Cursor → List Token → Prop
  | nil {c : Cursor} : Spends c []
  | endOfText {c : Cursor} (h : c.current.kind.isEnd = true) : Spends c [c.current]
  | cons {c d : Cursor} {ts : List Token} (h : c.next? = some d) (hts : Spends d ts) :
      Spends c (c.current :: ts)

theorem Takes.spends (h : c.Takes ts d) (hus : d.Spends us) : c.Spends (ts ++ us) := by
  induction h with
  | nil => exact hus
  | cons hnext _ ih => exact .cons hnext (ih hus)

end Cursor

/-! ## What a run takes -/

/-- What is left of the script of a rule is guarded, and ends where the rule may. -/
abbrev Rule.Allows {α : Type} (rule : Rule) (p : Progress) (m : Script α) : Prop :=
  m.Guarded rule (fun p _ => rule.Ends p) p

/-- What a run of a rule takes from a cursor on, if it has taken a token before or none yet. -/
def Rule.Took {α : Type} (rule : Rule) (taken : Bool) (c : Cursor) (ts : List Token) :
    Except Failure (α × Cursor) → Prop
  | .ok (_, n) => c.Takes ts n ∧ (rule.consumes = true → taken = true ∨ ts ≠ [])
  | .error _ => c.Spends ts

variable {α : Type} {m : Script α} {rule callee : Rule} {c c₁ d : Cursor} {ts us : List Token}
  {taken : Bool} {r : Except Failure (α × Cursor)}

/-- Behind the end of the text nothing is taken any more. -/
theorem Runs.of_pastEnd (h : Runs m c ts r) (hm : rule.Allows .pastEnd m) :
    ts = [] ∧ ∃ failure, r = .error failure := by
  induction h with
  | done => exact hm.elim
  | fail => exact ⟨rfl, _, rfl⟩
  | look _ ih => exact ih (hm _ _)
  | peek _ _ ih => exact ih (hm _)
  | peekFault => exact ⟨rfl, _, rfl⟩
  | take => exact hm.elim
  | takeFault => exact hm.elim
  | call => exact hm.elim
  | callFails => exact hm.elim

theorem Rule.Took.cons (hnext : c.next? = some d) (h : rule.Took true d ts r) :
    rule.Took taken c (c.current :: ts) r := by
  cases r with
  | ok result => exact ⟨.cons hnext h.1, fun _ => .inr (List.cons_ne_nil _ _)⟩
  | error failure => exact .cons hnext h

/-- Behind a rule that was called, a run goes on where that rule has stopped. -/
theorem Rule.Took.append (hts : c.Takes ts d) (hne : callee.consumes = true → ts ≠ [])
    (h : rule.Took (taken || callee.consumes) d us r) : rule.Took taken c (ts ++ us) r := by
  cases r with
  | ok result =>
    refine ⟨hts.append h.1, fun hrule => ?_⟩
    rcases h.2 hrule with hbehind | hus
    · rcases Bool.or_eq_true_iff.mp hbehind with htaken | hcallee
      · exact .inl htaken
      · exact .inr (by simp [hne hcallee])
    · exact .inr (by simp [hus])
  | error failure => exact hts.spends h

/-- A run takes the tokens of the text one after the other, the end of the text only before it
fails, and at least one if the rule succeeds and has to. -/
theorem Runs.took (h : Runs m c ts r) (hm : rule.Allows (.facing taken c.current) m) :
    rule.Took taken c ts r := by
  -- for all rules at once: a rule that is called has a run of its own, which has taken nothing yet
  induction h generalizing rule taken with
  | done => exact ⟨.nil, fun hrule => .inl (hm hrule)⟩
  | fail => exact .nil
  | look _ ih => exact ih (hm _)
  | peek _ _ ih => exact ih (hm _)
  | peekFault => exact .nil
  | take hstep hrun ih =>
    rcases hm.take with ⟨hend, hpast⟩ | ⟨hend, hnext⟩
    · obtain ⟨rfl, failure, rfl⟩ := hrun.of_pastEnd hpast
      exact .endOfText hend
    · exact .cons ((Cursor.step_eq_ok_iff hend).mp hstep) (ih (hnext _))
  | takeFault => exact .nil
  | @call _ callee _ c _ _ _ _ _ _ _ ihrule ih =>
    obtain ⟨hts, hne⟩ := ihrule (callee.keeps c.current)
    exact .append hts (fun hcallee => (hne hcallee).resolve_left Bool.false_ne_true) (ih (hm.2 _ _))
  | @callFails _ callee _ c _ _ _ ihrule => exact ihrule (callee.keeps c.current)

/-- A rule that succeeds has taken the tokens in between, and one at least if it has to. -/
theorem Rule.takes {value : rule.Value} (h : Runs rule.script c ts (.ok (value, d))) :
    c.Takes ts d ∧ (rule.consumes = true → ts ≠ []) := by
  obtain ⟨hts, hne⟩ := h.took (rule.keeps c.current)
  exact ⟨hts, fun hrule => (hne hrule).resolve_left Bool.false_ne_true⟩

theorem Rule.spends {r : Except Failure (rule.Value × Cursor)} (h : Runs rule.script c ts r) :
    c.Spends ts := by
  have htook := h.took (rule.keeps c.current)
  cases r with
  | ok result => simpa using htook.1.spends .nil
  | error failure => exact htook

/-! ## Which rules are called -/

theorem Calls.of_pastEnd (h : Calls m c ts callee d) : ¬ rule.Allows .pastEnd m := by
  induction h with
  | here => exact id
  | look _ ih => exact fun hm => ih (hm _ _)
  | peek _ _ ih => exact fun hm => ih (hm _)
  | take => exact id
  | behind => exact id

/-- A rule is called behind the tokens that were taken until then. There are some, or the rule is a
lower one. -/
theorem Calls.descends (h : Calls m c ts callee d)
    (hm : rule.Allows (.facing taken c.current) m) :
    c.Takes ts d ∧ (taken = true ∨ ts ≠ [] ∨ callee.level < rule.level) := by
  induction h generalizing taken with
  | here => exact ⟨.nil, hm.1.imp_right .inr⟩
  | look _ ih => exact ih (hm _)
  | peek _ _ ih => exact ih (hm _)
  | take hstep hcalls ih =>
    rcases hm.take with ⟨-, hpast⟩ | ⟨hend, hnext⟩
    · exact absurd hpast hcalls.of_pastEnd
    · obtain ⟨hts, -⟩ := ih (hnext _)
      exact ⟨.cons ((Cursor.step_eq_ok_iff hend).mp hstep) hts, .inr (.inl (List.cons_ne_nil _ _))⟩
  | behind hfirst _ ih =>
    obtain ⟨hts, hne⟩ := Rule.takes hfirst
    obtain ⟨hus, hdescends⟩ := ih (hm.2 _ _)
    refine ⟨hts.append hus, ?_⟩
    rcases hdescends with hbehind | hus | hlevel
    · rcases Bool.or_eq_true_iff.mp hbehind with htaken | hfirst
      · exact .inl htaken
      · exact .inr (.inl (by simp [hne hfirst]))
    · exact .inr (.inl (by simp [hus]))
    · exact .inr (.inr hlevel)

theorem Rule.descends (h : Calls rule.script c ts callee d) :
    c.Takes ts d ∧ (ts ≠ [] ∨ callee.level < rule.level) := by
  obtain ⟨hts, hdescends⟩ := h.descends (rule.keeps c.current)
  exact ⟨hts, hdescends.resolve_left Bool.false_ne_true⟩

/-! ## Every rule has a run -/

theorem Script.exists_runs_of_pastEnd (m : Script α) (hm : rule.Allows .pastEnd m) (c : Cursor) :
    ∃ ts r, Runs m c ts r := by
  induction m with
  | done value => exact ⟨_, _, .done⟩
  | fail failure => exact ⟨_, _, .fail⟩
  | look next ih =>
    obtain ⟨ts, r, h⟩ := ih _ _ (hm _ _)
    exact ⟨ts, r, .look h⟩
  | peek next ih =>
    cases hpeek : c.peek with
    | error fault => exact ⟨_, _, .peekFault hpeek⟩
    | ok kind =>
      obtain ⟨ts, r, h⟩ := ih _ (hm kind)
      exact ⟨ts, r, .peek hpeek h⟩
  | take next ih => exact hm.elim
  | call callee next ih => exact hm.elim

/-- A guarded script has a run if the rules have one in front of fewer tokens, and lower rules in
front of as many. -/
theorem Script.exists_runs (m : Script α) {left : Nat}
    (hrules : ∀ (callee : Rule) (d : Cursor),
      (d.left < left ∨ d.left ≤ left ∧ callee.level < rule.level) →
        ∃ ts r, Runs callee.script d ts r)
    (hm : rule.Allows (.facing taken c.current) m) (hleft : c.left ≤ left)
    (htaken : taken = true → c.left < left) : ∃ ts r, Runs m c ts r := by
  induction m generalizing c taken with
  | done value => exact ⟨_, _, .done⟩
  | fail failure => exact ⟨_, _, .fail⟩
  | look next ih =>
    obtain ⟨ts, r, h⟩ := ih _ _ (hm _) hleft htaken
    exact ⟨ts, r, .look h⟩
  | peek next ih =>
    cases hpeek : c.peek with
    | error fault => exact ⟨_, _, .peekFault hpeek⟩
    | ok kind =>
      obtain ⟨ts, r, h⟩ := ih _ (hm kind) hleft htaken
      exact ⟨ts, r, .peek hpeek h⟩
  | take next ih =>
    cases hstep : c.step with
    | error fault => exact ⟨_, _, .takeFault hstep⟩
    | ok c₁ =>
      rcases hm.take with ⟨-, hpast⟩ | ⟨hend, hnext⟩
      · obtain ⟨ts, r, h⟩ := (next c.current).exists_runs_of_pastEnd hpast c₁
        exact ⟨_, r, .take hstep h⟩
      · have hlt := Cursor.left_of_next? ((Cursor.step_eq_ok_iff hend).mp hstep)
        obtain ⟨ts, r, h⟩ := ih _ (hnext c₁.current) (by omega) (by omega)
        exact ⟨_, r, .take hstep h⟩
  | call callee next ih =>
    obtain ⟨hcallee, hnext⟩ := hm
    obtain ⟨ts, result, hrule⟩ := hrules callee c (hcallee.imp htaken fun h => ⟨hleft, h⟩)
    cases result with
    | error failure => exact ⟨ts, _, .callFails hrule⟩
    | ok result =>
      obtain ⟨value, c₁⟩ := result
      obtain ⟨hts, hne⟩ := Rule.takes hrule
      have hle := hts.left_le
      obtain ⟨us, r, h⟩ := ih value (hnext value c₁.current) (by omega) fun hbehind => by
        rcases Bool.or_eq_true_iff.mp hbehind with h | h
        · have := htaken h
          omega
        · have := hts.left_lt (hne h)
          omega
      exact ⟨ts ++ us, r, .call hrule h⟩

/-- Every rule ends in front of every text: what it calls stands in front of fewer tokens or is
a lower rule. -/
theorem Rule.exists_runs (rule : Rule) (c : Cursor) : ∃ ts r, Runs rule.script c ts r :=
  rule.script.exists_runs (fun callee d _ => callee.exists_runs d) (rule.keeps c.current)
    (Nat.le_refl _) fun htaken => absurd htaken Bool.false_ne_true
  termination_by (c.left, rule.level)
  decreasing_by
    simp only [Prod.lex_def]
    omega

/-- A script has one run. -/
theorem Runs.unique {r' : Except Failure (α × Cursor)} (h : Runs m c ts r) (h' : Runs m c us r') :
    us = ts ∧ r' = r := by
  induction h generalizing us with
  | done => cases h'; exact ⟨rfl, rfl⟩
  | fail => cases h'; exact ⟨rfl, rfl⟩
  | look _ ih => cases h' with | look h => exact ih h
  | peek hpeek _ ih =>
    cases h' with
    | peek hpeek' h =>
      cases hpeek.symm.trans hpeek'
      exact ih h
    | peekFault hpeek' => cases hpeek.symm.trans hpeek'
  | peekFault hpeek =>
    cases h' with
    | peek hpeek' h => cases hpeek.symm.trans hpeek'
    | peekFault hpeek' =>
      cases hpeek.symm.trans hpeek'
      exact ⟨rfl, rfl⟩
  | take hstep _ ih =>
    cases h' with
    | take hstep' h =>
      cases hstep.symm.trans hstep'
      obtain ⟨rfl, rfl⟩ := ih h
      exact ⟨rfl, rfl⟩
    | takeFault hstep' => cases hstep.symm.trans hstep'
  | takeFault hstep =>
    cases h' with
    | take hstep' h => cases hstep.symm.trans hstep'
    | takeFault hstep' =>
      cases hstep.symm.trans hstep'
      exact ⟨rfl, rfl⟩
  | call _ _ ihrule ih =>
    cases h' with
    | call hrule' h =>
      obtain ⟨rfl, hresult⟩ := ihrule hrule'
      cases hresult
      obtain ⟨rfl, rfl⟩ := ih h
      exact ⟨rfl, rfl⟩
    | callFails hrule' => cases (ihrule hrule').2
  | callFails _ ihrule =>
    cases h' with
    | call hrule' h => cases (ihrule hrule').2
    | callFails hrule' =>
      obtain ⟨rfl, hresult⟩ := ihrule hrule'
      cases hresult
      exact ⟨rfl, rfl⟩

/-! ## The tokens of a text -/

namespace Cursor

variable {c d : Cursor} {ts : List Token}

/-- The end of the text is spent at most once. -/
theorem Spends.countP_isEnd_le (h : c.Spends ts) : ts.countP (·.kind.isEnd) ≤ 1 := by
  induction h with
  | nil => exact Nat.zero_le _
  | endOfText => exact List.countP_le_length
  | cons hnext _ ih => rwa [List.countP_cons_of_neg (by simp [isEnd_of_next? hnext])]

/-- What lies ahead, up to the end of the text. -/
def ahead (c : Cursor) : List (Except Token.Fault Token) :=
  .ok c.current :: if c.current.kind.isEnd then [] else c.rest.pending ++ [.ok c.rest.endToken]

theorem ahead_of_next? (h : c.next? = some d) : d.ahead <+: c.ahead.tail := by
  have hend := isEnd_of_next? h
  unfold next? at h
  rw [if_neg (by simp [hend])] at h
  simp only [ahead, hend, Bool.false_eq_true, if_false, List.tail_cons]
  split at h
  · next hnil =>
    cases h
    simp [hnil, Token.Stream.endToken, Token.Kind.isEnd]
  · next token others hcons =>
    cases h
    rw [hcons]
    cases token.kind.isEnd <;> simp [Token.Stream.endToken]
  · cases h

/-- Tokens are spent in the order in which they lie ahead, each of them once. -/
theorem Spends.isPrefix (h : c.Spends ts) : ts.map .ok <+: c.ahead := by
  induction h with
  | nil => exact List.nil_prefix
  | endOfText => exact List.prefix_append [_] _
  | cons hnext _ ih => exact (List.prefix_cons_inj _).mpr (ih.trans (ahead_of_next? hnext))

theorem ahead_of_ofText? {source : String} (h : ofText? source = .ok c) :
    c.ahead <+: (Token.Stream.ofText source).pending ++
      [.ok (Token.Stream.ofText source).endToken] := by
  unfold ofText? Token.Stream.next at h
  generalize Token.Stream.ofText source = stream at h ⊢
  obtain ⟨pending, stop⟩ := stream
  cases pending with
  | nil =>
    cases h
    simp [ahead, Token.Stream.endToken, Token.Kind.isEnd]
  | cons result others =>
    cases result with
    | error fault => cases h
    | ok token =>
      cases h
      cases hend : token.kind.isEnd <;> simp [ahead, hend, Token.Stream.endToken]

end Cursor

end ShaderLang.Grammar
