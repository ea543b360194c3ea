import Mathlib
import ShaderLang.Proofs.Slice

/-!
# Looking ahead

A look-ahead holds a token but no fault, so looking at a fault takes it away: the reading behind it
goes on with what follows the fault. This is the only trace that looking leaves, in every text and
for every row of calls (`Lookahead.keeps_iff`). Calls are followed by the place that is read next,
where place `i` of a text is its `i`-th token or fault; a fault stands at one place only, as pieces
stand one behind the other (`Scan.nodup_scanFrom`).
-/

namespace ShaderLang.Token

/-! ## Places of a text -/

/-- The span of a token or a fault. -/
def scannedSpan : Except Fault Token → Span
  | .ok token => token.span
  | .error fault => fault.span

theorem Scan.nodup_cons {offset stop : Nat} {result : Except Fault Token}
    {results : List (Except Fault Token)} (hresult : (scannedSpan result).start = offset)
    (hlt : offset < stop)
    (h : results.Nodup ∧ ∀ r ∈ results, stop ≤ (scannedSpan r).start) :
    (result :: results).Nodup ∧ ∀ r ∈ result :: results, offset ≤ (scannedSpan r).start := by
  refine ⟨List.nodup_cons.mpr ⟨fun hmem => ?_, h.1⟩,
    List.forall_mem_cons.mpr ⟨hresult.ge, fun r hr => Nat.le_trans hlt.le (h.2 r hr)⟩⟩
  have := h.2 result hmem
  omega

/-- Nothing is scanned twice: everything begins behind what is scanned before it. -/
theorem Scan.nodup_scanFrom (offset : Nat) (text : List Char) :
    (scanFrom offset text).Nodup ∧
      ∀ result ∈ scanFrom offset text, offset ≤ (scannedSpan result).start := by
  induction offset, text using scan_induction with
  | nil offset => simp [scanFrom]
  | blank offset c rest n hpiece ih =>
    rw [scanFrom_blank offset hpiece]
    exact ⟨ih.1, fun r hr => Nat.le_trans (Nat.le_add_right _ _) (ih.2 r hr)⟩
  | token offset c rest n kind hpiece ih =>
    rw [scanFrom_token offset hpiece]
    exact nodup_cons rfl (Nat.lt_add_of_pos_right (byteLength_cons_pos c _)) ih
  | fault offset c rest n hpiece ih =>
    rw [scanFrom_fault offset hpiece]
    exact nodup_cons rfl (Nat.lt_add_of_pos_right (byteLength_cons_pos c _)) ih

namespace Stream

variable {s : Stream} {i j : Nat} {fault : Fault}

/-- What stands at a place of a stream. Behind the last place the text ends, again and again. -/
def nth (s : Stream) (i : Nat) : Except Fault Token :=
  s.pending[i]?.getD (.ok s.endToken)

/-- A stream of which so many places are read. -/
def behind (s : Stream) (i : Nat) : Stream :=
  { s with pending := s.pending.drop i }

theorem next_behind (s : Stream) (i : Nat) :
    (s.behind i).next = (s.nth i, s.behind (i + 1)) := by
  unfold next behind nth
  by_cases hi : i < s.pending.length
  · simp only [List.drop_eq_getElem_cons hi, List.getElem?_eq_getElem hi, Option.getD_some]
  · have hle := Nat.not_lt.mp hi
    simp only [List.drop_of_length_le hle, List.getElem?_eq_none hle, Option.getD_none,
      List.drop_of_length_le (Nat.le_succ_of_le hle)]
    rfl

theorem getElem?_of_nth (h : s.nth i = .error fault) : s.pending[i]? = some (.error fault) := by
  unfold nth at h
  cases hget : s.pending[i]? with
  | none =>
    rw [hget] at h
    cases h
  | some result =>
    rw [hget] at h
    exact congrArg some h

/-- A fault of a text stands at one place. -/
theorem nth_inj {source : String} (hi : (ofText source).nth i = .error fault)
    (hj : (ofText source).nth j = .error fault) : i = j := by
  have hi := getElem?_of_nth hi
  have hj := getElem?_of_nth hj
  have hnodup : (ofText source).pending.Nodup := (Scan.nodup_scanFrom 0 source.toList).1
  exact (List.getElem?_inj (List.getElem?_eq_some_iff.mp hi).1 hnodup).mp (hi.trans hj.symm)

end Stream

/-! ## Calls -/

namespace Lookahead

/-- What can be asked of a look-ahead. -/
inductive Call where
  | next
  | peek
  deriving DecidableEq

/-- The answer to a call, and the look-ahead behind it. -/
def Call.perform : Call → Lookahead → Except Fault Token × Lookahead
  | next => Lookahead.next
  | peek => Lookahead.peek

/-- The look-ahead behind calls. -/
def performAll (calls : List Call) (l : Lookahead) : Lookahead :=
  calls.foldl (fun l call => (call.perform l).2) l

/-- All calls with their answers. -/
def answers : List Call → Lookahead → List (Call × Except Fault Token)
  | [], _ => []
  | call :: calls, l => (call, (call.perform l).1) :: answers calls (call.perform l).2

/-- What is read. -/
def reads (calls : List Call) (l : Lookahead) : List (Except Fault Token) :=
  ((answers calls l).filter (·.1 == .next)).map (·.2)

/-- Whether an answer tells of what is now left behind: a reading, or a fault that was looked at. -/
def leaves : Call × Except Fault Token → Bool
  | (.next, _) => true
  | (.peek, .ok _) => false
  | (.peek, .error _) => true

/-- What is left behind, in order. -/
def left (calls : List Call) (l : Lookahead) : List (Except Fault Token) :=
  ((answers calls l).filter leaves).map (·.2)

/-- So many places of a stream are read, and the next one may be held. -/
def At (s : Stream) (i : Nat) (l : Lookahead) : Prop :=
  l = ⟨none, s.behind i⟩ ∨ ∃ token, s.nth i = .ok token ∧ l = ⟨some token, s.behind (i + 1)⟩

variable {s : Stream} {i : Nat} {l : Lookahead} {calls : List Call} {token : Token} {fault : Fault}

theorem at_ofText (source : String) : At (.ofText source) 0 (ofText source) := .inl rfl

/-- Looking shows what reading reads. -/
theorem peek_fst (l : Lookahead) : l.peek.1 = l.next.1 := by
  unfold peek
  dsimp only
  split
  · next h => exact h.symm
  · next h => exact h.symm

theorem At.next (h : At s i l) : l.next.1 = s.nth i ∧ At s (i + 1) l.next.2 := by
  rcases h with rfl | ⟨token, htoken, rfl⟩
  · simp only [Lookahead.next, Stream.next_behind, true_and]
    exact .inl rfl
  · exact ⟨htoken.symm, .inl rfl⟩

theorem At.peek_ok (h : At s i l) (htoken : s.nth i = .ok token) : At s i l.peek.2 := by
  rcases h with rfl | ⟨held, hheld, rfl⟩
  · simp only [peek, Lookahead.next, Stream.next_behind, htoken]
    exact .inr ⟨token, htoken, rfl⟩
  · exact .inr ⟨held, hheld, rfl⟩

theorem At.peek_error (h : At s i l) (hfault : s.nth i = .error fault) :
    At s (i + 1) l.peek.2 := by
  rcases h with rfl | ⟨held, hheld, -⟩
  · simp only [peek, Lookahead.next, Stream.next_behind, hfault]
    exact .inl rfl
  · cases hheld.symm.trans hfault

/-- No call goes back. -/
theorem At.perform (h : At s i l) (call : Call) : ∃ j, i ≤ j ∧ At s j (call.perform l).2 := by
  cases call with
  | next => exact ⟨i + 1, Nat.le_succ i, h.next.2⟩
  | peek =>
    cases hplace : s.nth i with
    | ok token => exact ⟨i, Nat.le_refl i, h.peek_ok hplace⟩
    | error fault => exact ⟨i + 1, Nat.le_succ i, h.peek_error hplace⟩

theorem At.performAll (h : At s i l) (calls : List Call) :
    ∃ j, i ≤ j ∧ At s j (performAll calls l) := by
  induction calls generalizing i l with
  | nil => exact ⟨i, Nat.le_refl i, h⟩
  | cons call calls ih =>
    obtain ⟨j, hij, hj⟩ := h.perform call
    obtain ⟨k, hjk, hk⟩ := ih hj
    exact ⟨k, Nat.le_trans hij hjk, hk⟩

@[simp] theorem performAll_cons (call : Call) (calls : List Call) (l : Lookahead) :
    Lookahead.performAll (call :: calls) l = Lookahead.performAll calls (call.perform l).2 := rfl

@[simp] theorem performAll_append (before after : List Call) (l : Lookahead) :
    Lookahead.performAll (before ++ after) l =
      Lookahead.performAll after (Lookahead.performAll before l) := List.foldl_append

@[simp] theorem reads_next (calls : List Call) (l : Lookahead) :
    reads (.next :: calls) l = l.next.1 :: reads calls l.next.2 := rfl

@[simp] theorem reads_peek (calls : List Call) (l : Lookahead) :
    reads (.peek :: calls) l = reads calls l.peek.2 := rfl

theorem left_next (calls : List Call) (l : Lookahead) :
    left (.next :: calls) l = l.next.1 :: left calls l.next.2 := rfl

theorem left_peek_ok (calls : List Call) (h : l.peek.1 = .ok token) :
    left (.peek :: calls) l = left calls l.peek.2 := by
  simp only [left, answers, Call.perform, h]
  rfl

theorem left_peek_error (calls : List Call) (h : l.peek.1 = .error fault) :
    left (.peek :: calls) l = .error fault :: left calls l.peek.2 := by
  simp only [left, answers, Call.perform, h]
  rfl

/-! ## What is read -/

/-- Whatever is read stands where the look-ahead is, or behind. -/
theorem At.exists_of_mem_reads (h : At s i l) {result : Except Fault Token}
    (hresult : result ∈ reads calls l) : ∃ j, i ≤ j ∧ s.nth j = result := by
  induction calls generalizing i l with
  | nil => cases hresult
  | cons call calls ih =>
    cases call with
    | next =>
      rcases List.mem_cons.mp hresult with rfl | hresult
      · exact ⟨i, Nat.le_refl i, h.next.1.symm⟩
      · obtain ⟨j, hj, hnth⟩ := ih h.next.2 hresult
        exact ⟨j, by omega, hnth⟩
    | peek =>
      obtain ⟨j, hj, hat⟩ := h.perform .peek
      obtain ⟨k, hk, hnth⟩ := ih hat hresult
      exact ⟨k, by omega, hnth⟩

theorem reads_of_not_mem (h : .next ∉ calls) (l : Lookahead) : reads calls l = [] := by
  induction calls generalizing l with
  | nil => rfl
  | cons call calls ih =>
    cases call with
    | next => exact absurd List.mem_cons_self h
    | peek => exact ih (fun hmem => h (List.mem_cons_of_mem _ hmem)) l.peek.2

/-- Every look that a reading follows is at a token. -/
def LooksAtTokens (calls : List Call) (l : Lookahead) : Prop :=
  ∀ before after, calls = before ++ .peek :: after → .next ∈ after →
    ∃ token, (Lookahead.performAll before l).peek.1 = .ok token

theorem looksAtTokens_cons {call : Call} :
    LooksAtTokens (call :: calls) l ↔
      (call = .peek → .next ∈ calls → ∃ token, l.peek.1 = .ok token) ∧
        LooksAtTokens calls (call.perform l).2 := by
  constructor
  · intro h
    refine ⟨fun hpeek => h [] calls (congrArg (· :: calls) hpeek), fun before after hcalls => ?_⟩
    exact h (call :: before) after (congrArg (call :: ·) hcalls)
  · rintro ⟨hfirst, hrest⟩ before after hcalls
    cases before with
    | nil =>
      obtain ⟨rfl, rfl⟩ := List.cons.inj hcalls
      exact hfirst rfl
    | cons first before =>
      obtain ⟨rfl, htail⟩ := List.cons.inj hcalls
      exact hrest before after htail

/-- The first reading reads what stands where the look-ahead is. -/
theorem At.mem_reads_filter (h : At s i l) (hnext : .next ∈ calls) :
    s.nth i ∈ reads (calls.filter (· == .next)) l := by
  obtain ⟨n, hn⟩ := Nat.exists_eq_succ_of_ne_zero (List.count_pos_iff.mpr hnext).ne'
  rw [List.filter_beq, hn, List.replicate_succ, reads_next, h.next.1]
  exact List.mem_cons_self

theorem At.reads_eq_iff {source : String} {l' : Lookahead} (h : At (.ofText source) i l)
    (h' : At (.ofText source) i l') :
    reads calls l = reads (calls.filter (· == .next)) l' ↔ LooksAtTokens calls l := by
  induction calls generalizing i l l' with
  | nil =>
    refine ⟨fun _ before after hcalls => ?_, fun _ => rfl⟩
    cases before <;> cases hcalls
  | cons call calls ih =>
    cases call with
    | next =>
      rw [List.filter_cons_of_pos rfl, reads_next, reads_next, looksAtTokens_cons, h.next.1,
        h'.next.1, List.cons_inj_right, ih h.next.2 h'.next.2]
      exact (and_iff_right nofun).symm
    | peek =>
      rw [List.filter_cons_of_neg (by decide), reads_peek, looksAtTokens_cons, peek_fst, h.next.1]
      cases hplace : (Stream.ofText source).nth i with
      | ok token =>
        rw [ih (h.peek_ok hplace) h']
        exact (and_iff_right fun _ _ => ⟨token, rfl⟩).symm
      | error fault =>
        have hbehind := h.peek_error hplace
        constructor
        · intro hreads
          -- without the look the fault is read, and behind the look it does not stand again
          have hnone : .next ∉ calls := fun hnext => by
            obtain ⟨j, hj, hnth⟩ := hbehind.exists_of_mem_reads
              (hreads ▸ h'.mem_reads_filter hnext)
            have := Stream.nth_inj hplace (hnth.trans hplace)
            omega
          refine ⟨fun _ hnext => absurd hnext hnone, fun before after hcalls hnext => ?_⟩
          exact absurd (hcalls ▸ List.mem_append_right _ (List.mem_cons_of_mem _ hnext)) hnone
        · rintro ⟨hfirst, -⟩
          have hnone : .next ∉ calls := fun hnext => by
            obtain ⟨token, htoken⟩ := hfirst rfl hnext
            cases htoken
          rw [reads_of_not_mem hnone, reads_of_not_mem fun h => hnone (List.mem_filter.mp h).1]

/-- Looks that come one after the other leave the look-ahead at a token. -/
theorem At.performAll_peeks (h : At s i l) (htoken : s.nth i = .ok token) (n : Nat) :
    At s i (Lookahead.performAll (.replicate n .peek) l) := by
  induction n generalizing l with
  | zero => exact h
  | succ n ih => exact ih (h.peek_ok htoken)

theorem At.peek_eq_next_iff {source : String} (h : At (.ofText source) i l) (n : Nat) :
    l.peek.1 = (Lookahead.performAll (.replicate (n + 1) .peek) l).next.1 ↔
      ∃ token, l.peek.1 = .ok token := by
  rw [peek_fst, h.next.1]
  cases hplace : (Stream.ofText source).nth i with
  | ok token =>
    rw [(h.performAll_peeks hplace (n + 1)).next.1, hplace]
    simp
  | error fault =>
    obtain ⟨j, hj, hat⟩ := (h.peek_error hplace).performAll (.replicate n .peek)
    rw [List.replicate_succ, performAll_cons]
    refine ⟨fun heq => ?_, fun ⟨token, htoken⟩ => by cases htoken⟩
    have := Stream.nth_inj hplace (hat.next.1.symm.trans heq.symm)
    omega

theorem At.left_eq (h : At s i l) {l' : Lookahead} (h' : At s i l') :
    left calls l = reads (.replicate (left calls l).length .next) l' := by
  induction calls generalizing i l l' with
  | nil => rfl
  | cons call calls ih =>
    cases call with
    | next =>
      rw [left_next, List.length_cons, List.replicate_succ, reads_next, h.next.1, h'.next.1,
        ← ih h.next.2 h'.next.2]
    | peek =>
      cases hplace : s.nth i with
      | ok token =>
        rw [left_peek_ok calls (by rw [peek_fst, h.next.1, hplace])]
        exact ih (h.peek_ok hplace) h'
      | error fault =>
        rw [left_peek_error calls (by rw [peek_fst, h.next.1, hplace]), List.length_cons,
          List.replicate_succ, reads_next, h'.next.1, hplace,
          ← ih (h.peek_error hplace) h'.next.2]

/-- What looking ahead changes, for every text and every row of calls. The readings give the same
as without the looks exactly if every look that a reading follows is at a token. A look shows what
the next reading gives exactly if it is at a token. And a fault that is looked at is all that is
lost: put where it was seen, it makes the readings those without the looks. -/
theorem reads_iff_looksAtTokens (source : String) (calls : List Call) :
    (reads calls (ofText source) = reads (calls.filter (· == .next)) (ofText source) ↔
      LooksAtTokens calls (ofText source)) ∧
    (∀ before n, (Lookahead.performAll before (ofText source)).peek.1 =
        (Lookahead.performAll (before ++ .replicate (n + 1) .peek) (ofText source)).next.1 ↔
      ∃ token, (Lookahead.performAll before (ofText source)).peek.1 = .ok token) ∧
    left calls (ofText source) =
      reads (.replicate (left calls (ofText source)).length .next) (ofText source) := by
  have hstart := at_ofText source
  refine ⟨hstart.reads_eq_iff hstart, fun before n => ?_, hstart.left_eq hstart⟩
  obtain ⟨i, -, hat⟩ := hstart.performAll before
  rw [performAll_append]
  exact hat.peek_eq_next_iff n

/-- A sign that begins no token is lost to the reading behind a look at it. -/
theorem reads_of_stray_sign :
    reads [.peek, .next] (ofText "@") ≠ reads [.next] (ofText "@") := by
  intro hreads
  have hfault : (ofText "@").peek.1 = .error ⟨"@", ⟨0, 1⟩⟩ := by cbv
  obtain ⟨token, htoken⟩ :=
    (reads_iff_looksAtTokens "@" [.peek, .next]).1.mp hreads [] [.next] rfl List.mem_cons_self
  cases hfault.symm.trans htoken

end Lookahead

end ShaderLang.Token
