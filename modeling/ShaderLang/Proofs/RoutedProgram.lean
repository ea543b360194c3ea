import ShaderLang.Proofs.RoutedStmt
import ShaderLang.Proofs.SoundProgram
import ShaderLang.Proofs.TypedProgram

/-!
# Functions do what their bodies say

A function that a checked program has been lowered to can be walked through from its first block: the
walk does the actions of the body, in their order and no others, for every outcome of the tests and
every value of a `switch`, and ends as the body does (`Program.lower_enacts`).
-/

namespace ShaderLang

namespace Lowering

open Ir (Build Builder Terminator)

/-- The code of a function does what its body says. The parameters are stored in the first block, up
to an index; from there on control goes according to a plan of the actions. -/
structure Enacts (f : FnDecl) (fn : Ir.Function) (index : Nat) (plan : Plan) : Prop where
  /-- Nothing but the code for the parameters stands before. -/
  opens : ∃ symbols inner b b', formals symbols f.formals b = .ok inner b' ∧
    IsAt b 0 0 ∧ IsAt b' 0 index ∧ Includes fn b'
  /-- At each mark of the plan stands the code of its action. -/
  valid : ∀ mark ∈ plan, mark.Valid f.returnTy fn
  /-- The first actions on the walk are those of the body, however many of them. -/
  performs : ∀ oracle h,
    (∃ n, h <:+ (walk fn plan oracle ⟨0, index, plan.within 0⟩ [] n).history) ↔
      f.Performs oracle h
  /-- The walk ends where the body does, and in the same way. -/
  ends : ∀ oracle ending h,
    (∃ n, walk fn plan oracle ⟨0, index, plan.within 0⟩ [] n = .ended ending h) ↔
      f.Ends oracle ending h
  /-- The plan fits the function. -/
  finds : ∀ oracle n h, walk fn plan oracle ⟨0, index, plan.within 0⟩ [] n ≠ .lost h

/-! ## To the end of a body -/

/-- The walk has come to the end of a course, or if that is unfinished, has made a number of steps at
least. -/
inductive Concludes (least steps : Nat) : Course → Walk → Prop where
  | ended {course : Course} {ending : Ending} (hending : course.exit.ending? = some ending) :
    Concludes least steps course (.ended ending course.history)
  | unfinished {course : Course} {p : Point} (hexit : course.exit.ending? = none)
      (hle : least ≤ steps) : Concludes least steps course (.at p course.history)

section

variable {fn : Ir.Function} {plan : Plan} {oracle : Oracle} {least : Nat} {p : Point}
  {control : Control} {behind : Option Point}

/-- Behind a whole body, the function is left. -/
theorem Follows.concludes (hfollows : Follows fn plan oracle least p control ⟨behind, none, none⟩)
    (hbehind : ∀ q ∈ behind, ∀ h, advance fn plan oracle (.at q h) = .ended .fellOff h)
    (h : History) :
    ∃ steps, Concludes least steps (control h) (walk fn plan oracle p h steps) := by
  obtain ⟨n, harrives⟩ := hfollows h
  generalize hcourse : control h = course at harrives
  generalize hw : walk fn plan oracle p h n = w at harrives
  cases harrives with
  | behind hq =>
    refine ⟨n + 1, ?_⟩
    rw [walk_trans hw, walk, Function.iterate_one, hbehind _ hq]
    exact .ended rfl
  | broken ht => cases ht
  | continued ht => cases ht
  | returned => exact ⟨n, hw ▸ .ended rfl⟩
  | unfinished hle => exact ⟨n, hw ▸ .unfinished rfl hle⟩

end

namespace Concludes

variable {least steps : Nat} {course : Course} {w : Walk}

theorem history (h : Concludes least steps course w) : w.history = course.history := by
  cases h <;> rfl

/-- Where the walk has not come to an end, it has come far enough. -/
theorem cases_ending (h : Concludes least steps course w) :
    (∃ ending, course.exit.ending? = some ending ∧ w = .ended ending course.history) ∨
      course.exit.ending? = none ∧ least ≤ steps ∧ ∃ p, w = .at p course.history := by
  cases h with
  | ended hending => exact .inl ⟨_, hending, rfl⟩
  | unfinished hexit hle => exact .inr ⟨hexit, hle, _, rfl⟩

end Concludes

section

variable {f : FnDecl} {fn : Ir.Function} {plan : Plan} {p : Point} {oracle : Oracle}
  (hconcludes : ∀ rounds, ∃ steps,
    Concludes rounds steps (f.course oracle rounds) (walk fn plan oracle p [] steps))

include hconcludes

theorem performs_iff (h : History) :
    (∃ n, h <:+ (walk fn plan oracle p [] n).history) ↔ f.Performs oracle h := by
  constructor
  · rintro ⟨n, hn⟩
    -- In so many rounds, the body does at least what the walk does in so many steps.
    obtain ⟨steps, hsteps⟩ := hconcludes n
    refine ⟨n, hn.trans ?_⟩
    rw [← hsteps.history]
    rcases Nat.le_total n steps with hle | hle
    · exact history_walk hle
    · rcases hsteps.cases_ending with ⟨ending, -, hw⟩ | ⟨-, hle', -⟩
      · simp only [hw, walk_ended hw hle, List.suffix_rfl]
      · exact history_walk hle'
  · rintro ⟨rounds, hrounds⟩
    obtain ⟨steps, hsteps⟩ := hconcludes rounds
    exact ⟨steps, hsteps.history ▸ hrounds⟩

theorem ends_iff (ending : Ending) (h : History) :
    (∃ n, walk fn plan oracle p [] n = .ended ending h) ↔ f.Ends oracle ending h := by
  constructor
  · rintro ⟨n, hn⟩
    obtain ⟨steps, hsteps⟩ := hconcludes n
    rcases hsteps.cases_ending with ⟨ending', hending, hw⟩ | ⟨-, hle, q, hw⟩
    · have hsame : Walk.ended ending h = .ended ending' (f.course oracle n).history := by
        rcases Nat.le_total n steps with hle | hle
        · rw [← hw, walk_ended hn hle]
        · rw [← hn, walk_ended hw hle]
      cases hsame
      exact ⟨n, rfl, hending⟩
    · rw [walk_ended hn hle] at hw
      cases hw
  · rintro ⟨rounds, rfl, hending⟩
    obtain ⟨steps, hsteps⟩ := hconcludes rounds
    rcases hsteps.cases_ending with ⟨ending', hending', hw⟩ | ⟨hnone, -⟩
    · rw [hending] at hending'
      cases hending'
      exact ⟨steps, hw⟩
    · rw [hending] at hnone
      cases hnone

theorem walk_ne_lost (n : Nat) (h : History) : walk fn plan oracle p [] n ≠ .lost h := by
  intro hn
  obtain ⟨steps, hsteps⟩ := hconcludes n
  rcases hsteps.cases_ending with ⟨ending, -, hw⟩ | ⟨-, hle, q, hw⟩
  · rcases Nat.le_total n steps with hle | hle
    · rw [walk_lost hn hle] at hw
      cases hw
    · rw [walk_ended hw hle] at hn
      cases hn
  · rw [walk_lost hn hle] at hw
    cases hw

end

/-! ## Functions -/

variable {g : SymbolTable} {b b' : Builder} {d d₁ d' : Draft} {returnTy : Ty}

/-- Behind its last statement a body is left, if control comes there. -/
theorem closeBody_routed {control : Oracle → Nat → Control}
    (hrouted : Routed returnTy d control none none d₁) :
    Ensures (closeBody returnTy) d₁.builder fun _ b' => ∃ d', d'.builder = b' ∧
      d.Becomes returnTy d' ∧ ∀ fn plan oracle rounds, d'.In fn plan → d.builder.IsOpen →
        ∀ h, ∃ steps, Concludes rounds steps (control oracle rounds h)
          (walk fn plan oracle (d.point plan) h steps) := by
  apply Ensures.get_bind
  cases hterm : d₁.builder.isTerminated with
  | true =>
    have hclosed := not_isOpen_of_isTerminated hrouted.settles.placed hterm
    refine Ensures.pure ⟨d₁, rfl, hrouted.becomes, ?_⟩
    intro fn plan oracle rounds hin hopen
    apply (hrouted.follows fn plan oracle rounds hin hopen).concludes
    rw [Draft.behind_of_not_isOpen hrouted.settles.placed hclosed]
    rintro _ ⟨⟩
  | false =>
    have hopen₁ := hrouted.settles.placed.isTerminated.mp hterm
    have hleave : ∀ t : Terminator, (∀ plan h, depart plan (some t) h = .ended .fellOff h) →
        Ensures (liftM (Build.terminate t)) d₁.builder fun _ b' => ∃ d', d'.builder = b' ∧
          d.Becomes returnTy d' ∧ ∀ fn plan oracle rounds, d'.In fn plan → d.builder.IsOpen →
            ∀ h, ∃ steps, Concludes rounds steps (control oracle rounds h)
              (walk fn plan oracle (d.point plan) h steps) := by
      intro t ht
      have hleft := Draft.becomes_fork returnTy hopen₁ [] t
      apply Ensures.terminate hopen₁
      refine ⟨_, rfl, hrouted.becomes.trans hleft, ?_⟩
      intro fn plan oracle rounds hin hopen
      apply (hrouted.follows fn plan oracle rounds (hleft.pull fn plan hin) hopen).concludes
      rw [Draft.behind_of_isOpen hopen₁]
      rintro _ ⟨⟩ h
      rw [Draft.advance_fork hopen₁ hin, ht]
    rw [if_neg Bool.false_ne_true]
    split
    · exact hleave (.ret none) fun _ _ => rfl
    · exact hleave .unreachable fun _ _ => rfl

theorem formals_flows (vs : List VarDecl) (hb : b.IsOpen) :
    Ensures (formals g vs) b fun _ b' => b.Flows b' ∧ b'.insertion = b.insertion := by
  induction vs generalizing g b with
  | nil => exact .pure ⟨.refl hb, rfl⟩
  | cons v rest ih =>
    rw [formals]
    have halloca := Builder.Flows.append hb [.alloca b.nextTemp v.ty.toIr v.name.name]
      (Nat.le_succ _)
    apply Ensures.bind_ok (Emit.lift_eq (Build.emitValue_eq hb _))
    have hstore := Builder.Flows.append halloca.isOpen
      [.store (.temp b.nextTemp) (.param v.name.name)] (Nat.le_refl _)
    apply Ensures.bind_ok (Emit.lift_eq (Build.emit_eq halloca.isOpen _))
    apply (ih hstore.isOpen).imp
    rintro _ b' - ⟨hflows, hinsertion⟩
    exact ⟨halloca.trans (hstore.trans hflows), by simpa using hinsertion⟩

theorem isOpen_begun (b : Builder) (f : FnDecl) : (begun b f).IsOpen :=
  Builder.isOpen_moveTo.mpr ((b.unfinished_begin _ _ _ _ 0).mpr rfl)

theorem isAt_begun (b : Builder) (f : FnDecl) : IsAt (begun b f) 0 0 :=
  ⟨rfl, .empty 0 "entry", rfl, rfl⟩

/-- A finished function holds all that has been built for it. -/
theorem in_of_openFn {fn : Ir.Function} (hfn : d.builder.openFn = some fn) : d.In fn d.marks where
  includes id block hblock := by
    refine ⟨block, ?_, .refl block, fun _ => rfl⟩
    simpa [Builder.block?, hfn] using hblock
  rest := ⟨[], by simp⟩

/-- The body of a function does what it says. -/
theorem bodyCode_enacts {f : FnDecl} {cc : Check.Context} {c : SymbolTable}
    (hc : Check.CleanStmts cc c f.body.stmts) :
    Ensures (bodyCode g f) (begun b f) fun _ b' => Within (begun b f) b' ∧
      ∀ fn, b'.openFn = some fn → ∃ index plan, Enacts f fn index plan := by
  have hopen := isOpen_begun b f
  unfold bodyCode
  apply (formals_flows f.formals hopen).bind
  rintro inner b₁ hformals ⟨hflows, hinsertion⟩
  have hready : Draft.Ready ⟨b₁, []⟩ := by
    intro m hm
    cases hm
  have hbecomes : Draft.Becomes f.returnTy ⟨begun b f, []⟩ ⟨b₁, []⟩ :=
    .of_extends hflows.ext (Draft.closed_of_isOpen (d := ⟨begun b f, []⟩) hopen)
  apply (stmts_routed hc ⟨b₁, []⟩ hflows.isOpen.placed hready).bind
  rintro _ b₂ - ⟨d₂, rfl, hrouted⟩
  apply (closeBody_routed hrouted).imp
  rintro _ b₃ - ⟨d₃, rfl, hbecomes₃, hconcludes⟩
  refine ⟨.of_extends (hbecomes.trans hbecomes₃).extends_, ?_⟩
  intro fn hfn
  have hin := in_of_openFn hfn
  have hin₁ := hbecomes₃.pull fn _ hin
  have hhere : here b₁ = 0 := by
    rw [here, hinsertion]
    rfl
  have hat : IsAt b₁ 0 (offset b₁) := hhere ▸ isAt_here hflows.isOpen.placed
  have hpoint : Draft.point ⟨b₁, []⟩ d₃.marks = ⟨0, offset b₁, d₃.marks.within 0⟩ :=
    Draft.point_eq (d := ⟨b₁, []⟩) hat
  have hwalks : ∀ oracle rounds, ∃ steps, Concludes rounds steps (f.course oracle rounds)
      (walk fn d₃.marks oracle ⟨0, offset b₁, d₃.marks.within 0⟩ [] steps) := by
    intro oracle rounds
    rw [← hpoint]
    exact hconcludes fn d₃.marks oracle rounds hin hflows.isOpen []
  exact ⟨offset b₁, d₃.marks, {
    opens := ⟨g.push, inner, begun b f, b₁, hformals, isAt_begun b f, hat, hin₁.includes⟩
    valid := hbecomes₃.valid fn _ hin (by simp)
    performs := fun oracle => performs_iff (hwalks oracle)
    ends := fun oracle => ends_iff (hwalks oracle)
    finds := fun oracle => walk_ne_lost (hwalks oracle) }⟩

theorem fnBody_enacts {f : FnDecl} {cc : Check.Context} {c : SymbolTable}
    (hc : Check.CleanStmts cc c f.body.stmts) (hx : fnBody g f b = .ok () b') :
    ∃ fn, b'.output = b.output.addFunction fn ∧ fn.name = f.name.name ∧
      ∃ index plan, Enacts f fn index plan := by
  have hb : b.openFn = none := by
    cases hopen : b.openFn with
    | none => rfl
    | some fn =>
      rw [fnBody_stillOpen hopen] at hx
      cases hx
  rw [fnBody_eq hb] at hx
  obtain ⟨_, b₁, hbody, hfinish⟩ := Emit.bind_eq_ok.mp hx
  obtain ⟨hwithin, henacts⟩ := (bodyCode_enacts hc).ok_imp hbody
  obtain ⟨fn, hfn, hname⟩ := openFn_of_within hwithin
  obtain ⟨fn', hfn', houtput⟩ := finishFunction_eq_ok (Emit.lift_eq_ok hfinish)
  rw [hfn] at hfn'
  cases hfn'
  refine ⟨fn, ?_, hname, henacts fn hfn⟩
  rw [houtput, hwithin.output]
  rfl

/-! ## Programs -/

theorem Ir.Module.mem_addFunction_of_ne {m : Ir.Module} {fn fn' : Ir.Function}
    (hfn : fn ∈ m.functions) (hne : fn.name ≠ fn'.name) : fn ∈ (m.addFunction fn').functions :=
  List.mem_append_left _ (List.mem_filter.mpr ⟨hfn, by simpa using hne⟩)

theorem program_enacts {p : Program} {c : SymbolTable} {l l' : Lowering}
    (hc : Check.CleanProgram c p) (hx : program p l = .ok () l') :
    (∀ f, .fn f ∈ p → ∃ fn ∈ l'.builder.output.functions, fn.name = f.name.name ∧
      ∃ index plan, Enacts f fn index plan) ∧
    ∀ fn ∈ l.builder.output.functions, (∀ d ∈ p, d.name.name ≠ fn.name) →
      fn ∈ l'.builder.output.functions := by
  induction p generalizing c l with
  | nil =>
    cases hx
    exact ⟨by simp, fun _ hfn _ => hfn⟩
  | cons d rest ih =>
    obtain ⟨hnew, -⟩ := List.nodup_cons.mp (Check.nodup_of_cleanProgram hc).1
    obtain ⟨hcd, hcrest⟩ := Check.cleanProgram_cons hc
    obtain ⟨_, l₁, hdecl, hrest⟩ := Run.bind_eq_ok hx
    obtain ⟨hall, hkeeps⟩ := ih hcrest hrest
    cases d with
    | var v =>
      obtain ⟨g', l₂, hrun, hmodify⟩ := Run.bind_eq_ok hdecl
      obtain ⟨b', hvar, rfl⟩ := Run.ofEmit_eq_ok hrun
      cases hmodify
      have hsame : b'.output.functions = l.builder.output.functions := by
        rcases globalVar_cases v with hfail | ⟨init, hok⟩
        · rw [hfail] at hvar
          cases hvar
        · rw [hok] at hvar
          cases hvar
          rfl
      refine ⟨?_, ?_⟩
      · intro f hf
        exact hall f ((List.mem_cons.mp hf).resolve_left nofun)
      · intro fn hfn hne
        exact hkeeps fn (hsame ▸ hfn) fun d' hd' => hne d' (List.mem_cons_of_mem _ hd')
    | fn f =>
      obtain ⟨_, l₂, hdeclare, hx⟩ := Run.bind_eq_ok hdecl
      cases hdeclare
      obtain ⟨b', hbody, rfl⟩ := Run.ofEmit_eq_ok hx
      obtain ⟨fn, houtput, hname, henacts⟩ := fnBody_enacts (Check.CleanFn.body hcd) hbody
      refine ⟨?_, ?_⟩
      · intro f' hf'
        rcases List.mem_cons.mp hf' with heq | hf'
        · cases heq
          have hother : ∀ d' ∈ rest, d'.name.name ≠ fn.name := by
            intro d' hd' heq
            exact hnew (List.mem_map.mpr ⟨d', hd', heq.trans hname⟩)
          have hadded : fn ∈ b'.output.functions := by
            rw [houtput]
            exact List.mem_append_right _ List.mem_cons_self
          exact ⟨fn, hkeeps fn hadded hother, hname, henacts⟩
        · exact hall f' hf'
      · intro fn' hfn' hne
        have hne' : fn'.name ≠ fn.name := by
          rw [hname]
          exact (hne (.fn f) List.mem_cons_self).symm
        have hkept : fn' ∈ b'.output.functions := by
          rw [houtput]
          exact Ir.Module.mem_addFunction_of_ne hfn' hne'
        exact hkeeps fn' hkept fun d' hd' => hne d' (List.mem_cons_of_mem _ hd')

end Lowering

namespace Program

variable {p : Program} {moduleName : String} {m : Ir.Module}

/-- In the module of a program without findings there is a function for each of its functions, which
does what the body of that says: for every outcome of the tests and every value of a `switch` it does
the same actions in the same order, and ends in the same way if it ends. -/
theorem lower_enacts (hclean : p.findings = []) (hm : p.lower moduleName = .ok m) (f : FnDecl)
    (hf : .fn f ∈ p) : ∃ fn ∈ m.functions, fn.name = f.name.name ∧
      ∃ index plan, Lowering.Enacts f fn index plan := by
  unfold lower at hm
  cases hx : Lowering.program p (.new moduleName) with
  | error fault l =>
    rw [hx] at hm
    cases hm
  | ok a l =>
    rw [hx] at hm
    cases hm
    exact (Lowering.program_enacts hclean hx).1 f hf

/-- A `continue` inside a `switch` inside a loop, and an arm that goes on with the next one. -/
theorem lower_enacts_of_switch_in_loop : ∃ p m f,
    ofText? "void f(int n) { while (n < 9) { switch (n) { case 1: continue; default: n = 1; case 2: break; } n++; } }" = .ok p ∧
      p.findings = [] ∧ p.lower "m" = .ok m ∧ .fn f ∈ p ∧
        ∃ fn ∈ m.functions, fn.name = f.name.name ∧ ∃ index plan, Lowering.Enacts f fn index plan := by
  obtain ⟨p, f, hp, hclean, ⟨m, hm⟩, hf⟩ : ∃ p f,
      ofText? "void f(int n) { while (n < 9) { switch (n) { case 1: continue; default: n = 1; case 2: break; } n++; } }" = .ok p ∧
        p.findings = [] ∧ (∃ m, p.lower "m" = .ok m) ∧ .fn f ∈ p :=
    ⟨_, _, by cbv, by cbv, ⟨_, by cbv⟩, List.mem_cons_self⟩
  exact ⟨p, m, f, hp, hclean, hm, hf, lower_enacts hclean hm f hf⟩

end Program

end ShaderLang
