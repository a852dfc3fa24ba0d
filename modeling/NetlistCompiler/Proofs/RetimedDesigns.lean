import NetlistCompiler.Proofs.RetimedBehaviour
import NetlistCompiler.Proofs.RetimedModules
import NetlistCompiler.Proofs.WidthSlices

/-!
# Retimed designs

Retiming a design leaves alone all that other modules see of a module. What it reports holds of the
modules that it returns, and a design with the least clock periods is only retimed to the same
periods, however often, as long as the delay of no path overflows. It fails only for a combinational
loop, for a target out of reach, for a module with more connections than a register can be wide or
because of an overflow.
-/

namespace NetlistCompiler

variable {delay : Node → Int} {goal : RetimingGoal}

/-! ### What becomes of each module -/

/-- A retimed design in terms of what retiming makes of the modules one by one. -/
structure Design.RetimesTo (delay : Node → Int) (goal : RetimingGoal) (d : Design)
    (result : RetimedDesign) : Prop where
  entries : result.design.entries = d.entries
  size : result.design.modules.size = d.modules.size
  outcomes : ∀ k (m : Module), d.modules[k]? = some m → ∃ r, result.design.modules[k]? = some r ∧
    (m.retime? k delay goal = .ok none ∧ r = m ∨
      ∃ report ∈ result.reports, m.retime? k delay goal = .ok (some (r, report)))
  reports : ∀ report ∈ result.reports, ∃ m r : Module, d.modules[report.module]? = some m ∧
    result.design.modules[report.module]? = some r ∧
    m.retime? report.module delay goal = .ok (some (r, report))
  sorted : result.reports.Pairwise fun a b => a.module < b.module

/-- The modules of a design can be retimed. -/
def Design.Retimable (d : Design) : Prop :=
  ∀ m ∈ d.modules, m.Retimable

/-- The delay of no path of a module overflows. -/
def Design.DelaysFit (d : Design) (delay : Node → Int) : Prop :=
  ∀ m ∈ d.modules, m.DelaysFit delay

lemma Design.getElem?_modules_addModule (d : Design) (m : Module) (k : Nat) :
    (d.addModule m).modules[k]? = if k = d.modules.size then some m else d.modules[k]? :=
  Array.getElem?_push

namespace Design.RetimesTo

variable {d : Design} {result : RetimedDesign} {m : Module}

lemma module_lt (h : d.RetimesTo delay goal result) {report : RetimingReport}
    (hreport : report ∈ result.reports) : report.module < d.modules.size := by
  obtain ⟨m, -, hm, -⟩ := h.reports report hreport
  exact (Array.getElem?_eq_some_iff.mp hm).1

/-- One module more, with or without a report. -/
lemma push (h : d.RetimesTo delay goal result) {r : Module} (new : Option RetimingReport)
    (hm : m.retime? d.modules.size delay goal = .ok (new.map fun report => (r, report)))
    (hnone : new = none → r = m) (hid : ∀ report ∈ new, report.module = d.modules.size) :
    (d.addModule m).RetimesTo delay goal
      ⟨result.design.addModule r, result.reports ++ new.toList⟩ := by
  refine ⟨h.entries, by simp [Design.addModule, h.size], ?_, ?_, ?_⟩
  · intro k m' hm'
    rw [getElem?_modules_addModule] at hm' ⊢
    rw [h.size]
    split at hm'
    · next hk =>
      cases hm'
      subst hk
      refine ⟨r, if_pos rfl, ?_⟩
      cases new with
      | none => exact .inl ⟨hm, hnone rfl⟩
      | some report => exact .inr ⟨report, by simp, hm⟩
    · next hk =>
      rw [if_neg hk]
      obtain ⟨r', hr', hunchanged | ⟨report, hreport, hretime⟩⟩ := h.outcomes k m' hm'
      · exact ⟨r', hr', .inl hunchanged⟩
      · exact ⟨r', hr', .inr ⟨report, List.mem_append_left _ hreport, hretime⟩⟩
  · intro report hreport
    rw [getElem?_modules_addModule, getElem?_modules_addModule, h.size]
    rcases List.mem_append.mp hreport with hold | hnew
    · rw [if_neg (h.module_lt hold).ne, if_neg (h.module_lt hold).ne]
      exact h.reports report hold
    · rw [Option.mem_toList] at hnew
      obtain rfl := Option.mem_def.mp hnew
      rw [hid report rfl, if_pos rfl, if_pos rfl]
      exact ⟨m, r, rfl, rfl, hm⟩
  · rw [List.pairwise_append]
    refine ⟨h.sorted, ?_, ?_⟩
    · cases new <;> simp
    · intro a ha b hb
      rw [hid b (Option.mem_toList.mp hb)]
      exact h.module_lt ha

lemma addModule (h : d.RetimesTo delay goal result) (hm : m.Retimable) {result' : RetimedDesign}
    (hstep : result.addModule delay goal m = .ok result') :
    (d.addModule m).RetimesTo delay goal result' := by
  obtain ⟨outcome, houtcome, hrest⟩ := exists_of_bind_eq_ok hstep
  rw [h.size] at houtcome
  cases outcome with
  | none =>
    cases hrest
    simpa using h.push none houtcome (fun _ => rfl) (by simp)
  | some retimed =>
    cases hrest
    refine h.push (some retimed.2) houtcome (by rintro ⟨⟩) ?_
    rintro report ⟨⟩
    exact (hm.isRetimed_of_retime? houtcome).2.module

/-- All modules one after the other. -/
lemma addModules (h : d.RetimesTo delay goal result) {ms : List Module}
    (hms : ∀ m ∈ ms, m.Retimable) {result' : RetimedDesign}
    (hfold : ms.foldlM (RetimedDesign.addModule delay goal) result = .ok result') :
    (ms.foldl Design.addModule d).RetimesTo delay goal result' := by
  induction ms generalizing d result with
  | nil =>
    cases hfold
    exact h
  | cons m ms ih =>
    rw [List.foldlM_cons] at hfold
    obtain ⟨result₁, hstep, hrest⟩ := exists_of_bind_eq_ok hfold
    exact ih (h.addModule (hms m (by simp)) hstep) (fun m' hm' => hms m' (by simp [hm'])) hrest

end Design.RetimesTo

lemma Design.foldl_addModule (ms : List Module) (d : Design) :
    ms.foldl Design.addModule d = ⟨d.modules ++ ms, d.entries⟩ := by
  induction ms generalizing d with
  | nil => simp
  | cons m ms ih => simp [ih, Design.addModule]

lemma Design.Retimable.retimesTo {d : Design} (hd : d.Retimable) {result : RetimedDesign}
    (h : d.retime delay goal = .ok result) : d.RetimesTo delay goal result := by
  have hstart : (⟨#[], d.entries⟩ : Design).RetimesTo delay goal ⟨⟨#[], d.entries⟩, []⟩ :=
    ⟨rfl, rfl, by simp, by simp, .nil⟩
  have hall := hstart.addModules (fun m hm => hd m (Array.mem_toList_iff.mp hm)) h
  rw [Design.foldl_addModule] at hall
  simpa using hall

/-- A module that makes retiming of a design fail. -/
lemma Design.exists_retime?_error {d : Design} :
    ∀ e, d.retime delay goal = .error e → ∃ m ∈ d.modules, ∃ k, m.retime? k delay goal = .error e := by
  apply error_of_foldlM
  intro result m hm
  refine error_of_bind (fun e he => ⟨m, Array.mem_toList_iff.mp hm, _, he⟩) ?_
  intro outcome e he
  cases outcome with
  | none => cases he
  | some retimed => cases he

/-- Minimizing succeeds if all modules with registers have a circuit and no more connections than a
register can be wide. -/
lemma Design.Retimable.exists_minimized {d : Design} (hd : d.Retimable) (hfit : d.DelaysFit delay)
    (h : ∀ m ∈ d.modules, m.hasRegisters = true → m.connections.size ≤ Shape.maxWidth ∧
      ∃ c, m.circuit? delay m.invocation.moduleName = .ok (some c)) :
    ∃ result, d.retime delay .minimize = .ok result := by
  cases hresult : d.retime delay .minimize with
  | ok result => exact ⟨result, rfl⟩
  | error e =>
    exfalso
    obtain ⟨m, hm, id, herror⟩ := Design.exists_retime?_error e hresult
    by_cases hreg : m.hasRegisters = true
    · obtain ⟨hsize, c, hc⟩ := h m hm hreg
      obtain ⟨initial, hinitial, -⟩ := c.period_spec
      obtain ⟨r, report, hok⟩ := Module.exists_minimized_of_rebuild hreg hc (hfit m hm _ c hc) hinitial
        (fun lags c' t hachieves hretime =>
          (hd m hm).exists_rebuild hc hachieves.legal hretime hsize) id
      rw [herror] at hok
      cases hok
    · rw [Module.retime?_eq_none fun hsourced => hreg hsourced.1] at herror
      cases herror

/-! ### The frame -/

/-- What a report says of the module before and after. -/
structure RetimingReport.Describes (report : RetimingReport) (delay : Node → Int)
    (goal : RetimingGoal) (m r : Module) : Prop where
  name : report.name = m.invocation.moduleName
  nodes : r.nodes.toList.filter (fun n => !n.isRegister) =
    m.nodes.toList.filter fun n => !n.isRegister
  initial : m.HasPeriod delay report.initialPeriod
  period : r.HasPeriod delay report.period
  met : goal.MetBy report.initialPeriod report.period

lemma Module.IsRetimed.describes {m r : Module} {id : Nat} {report : RetimingReport}
    (h : m.IsRetimed id delay goal r report) : report.Describes delay goal m r := by
  obtain ⟨c, lags, hc, hinitial, -⟩ := h.initial
  exact ⟨h.name, h.nodes.filter_eq, ⟨c, hc, hinitial⟩, h.period, h.met⟩

namespace Design.RetimesTo

variable {d : Design} {result : RetimedDesign}

/-- What has become of a module that can be retimed. -/
lemma cases_of_retimable (h : d.RetimesTo delay goal result) {k : Nat} {m : Module}
    (hk : d.modules[k]? = some m) (hm : m.Retimable) :
    ∃ r, result.design.modules[k]? = some r ∧
      (¬m.HasSourcedRegisters ∧ r = m ∧ m.retime? k delay goal = .ok none ∨
        m.HasSourcedRegisters ∧ ∃ report ∈ result.reports, m.IsRetimed k delay goal r report) := by
  obtain ⟨r, hr, ⟨hnone, rfl⟩ | ⟨report, hreport, hsome⟩⟩ := h.outcomes k m hk
  · exact ⟨r, hr, .inl ⟨hm.not_sourced hnone, rfl, hnone⟩⟩
  · obtain ⟨hsourced, hretimed⟩ := hm.isRetimed_of_retime? hsome
    exact ⟨r, hr, .inr ⟨hsourced, report, hreport, hretimed⟩⟩

lemma isRetimed_of_mem (h : d.RetimesTo delay goal result) (hd : d.Retimable)
    {report : RetimingReport} (hreport : report ∈ result.reports) :
    ∃ m r, d.modules[report.module]? = some m ∧ result.design.modules[report.module]? = some r ∧
      m.HasSourcedRegisters ∧ m.IsRetimed report.module delay goal r report := by
  obtain ⟨m, r, hm, hr, hretime⟩ := h.reports report hreport
  exact ⟨m, r, hm, hr, (hd m (Array.mem_of_getElem? hm)).isRetimed_of_retime? hretime⟩

/-- A design can be retimed again. -/
lemma retimable (h : d.RetimesTo delay goal result) (hd : d.Retimable) :
    result.design.Retimable := by
  intro r hr
  obtain ⟨k, hk, rfl⟩ := Array.mem_iff_getElem.mp hr
  have hlt : k < d.modules.size := h.size ▸ hk
  have hm := hd _ (Array.getElem_mem hlt)
  obtain ⟨r, hr, hcases⟩ := h.cases_of_retimable (Array.getElem?_eq_getElem hlt) hm
  rw [Array.getElem?_eq_getElem hk] at hr
  cases hr
  rcases hcases with ⟨-, heq, -⟩ | ⟨-, report, -, hretimed⟩
  · rw [heq]
    exact hm
  · exact hretimed.retimable

end Design.RetimesTo

/-! ### Rounds -/

/-- Every module has the least clock period, the one of a first report, or is left alone by
retiming. -/
def Design.Settled (delay : Node → Int) (first : List RetimingReport) (d : Design) : Prop :=
  ∀ (k : Nat) (m : Module), d.modules[k]? = some m →
    (∃ report ∈ first, report.module = k ∧ m.DelaysFit delay ∧
      m.HasLeastPeriod delay report.period) ∨ ¬m.HasSourcedRegisters

/-- After one round with the least period as the goal nothing is left to do. -/
lemma Design.RetimesTo.settled {d : Design} {result : RetimedDesign}
    (h : d.RetimesTo delay .minimize result) (hd : d.Retimable) (hfit : d.DelaysFit delay) :
    result.design.Settled delay result.reports := by
  intro k r hr
  have hlt : k < d.modules.size := h.size ▸ (Array.getElem?_eq_some_iff.mp hr).1
  have hget := Array.getElem?_eq_getElem hlt
  obtain ⟨r', hr', hcases⟩ := h.cases_of_retimable hget (hd _ (Array.getElem_mem hlt))
  rw [hr] at hr'
  cases hr'
  rcases hcases with ⟨hnot, rfl, -⟩ | ⟨-, report, hreport, hretimed⟩
  · exact .inr hnot
  · have hm := hfit _ (Array.getElem_mem hlt)
    exact .inl ⟨report, hreport, hretimed.module, hretimed.delays hm, hretimed.least rfl hm⟩

namespace Design.Settled

variable {d : Design} {first : List RetimingReport} {result : RetimedDesign}

/-- A further round reports the periods of the first one. -/
lemma periods_eq (hs : d.Settled delay first) (h : d.RetimesTo delay .minimize result)
    (hd : d.Retimable) {report : RetimingReport} (hreport : report ∈ result.reports) :
    ∃ report₁ ∈ first, report₁.module = report.module ∧
      report.initialPeriod = report₁.period ∧ report.period = report₁.period := by
  obtain ⟨m, r, hm, -, hsourced, hretimed⟩ := h.isRetimed_of_mem hd hreport
  rcases hs _ m hm with ⟨report₁, hmem, hmodule, hfit, hleast⟩ | hnot
  · exact ⟨report₁, hmem, hmodule, hretimed.periods_eq hfit hleast⟩
  · exact absurd hsourced hnot

/-- A further round leaves the design settled. -/
lemma retime (hs : d.Settled delay first) (h : d.RetimesTo delay .minimize result)
    (hd : d.Retimable) : result.design.Settled delay first := by
  intro k r hr
  have hlt : k < d.modules.size := h.size ▸ (Array.getElem?_eq_some_iff.mp hr).1
  have hget := Array.getElem?_eq_getElem hlt
  obtain ⟨r', hr', hcases⟩ := h.cases_of_retimable hget (hd _ (Array.getElem_mem hlt))
  rw [hr] at hr'
  cases hr'
  rcases hcases with ⟨-, rfl, -⟩ | ⟨hsourced, report, hreport, hretimed⟩
  · exact hs k _ hget
  · rcases hs k _ hget with ⟨report₁, hmem, hmodule, hfit, hleast⟩ | hnot
    · refine .inl ⟨report₁, hmem, hmodule, hretimed.delays hfit, ?_⟩
      rw [← (hretimed.periods_eq hfit hleast).2]
      exact hretimed.least rfl hfit
    · exact absurd hsourced hnot

end Design.Settled

/-- Rounds of retiming, each of them with the least period as its goal. -/
structure Design.Rounds (delay : Node → Int) (d : Design) (rounds : Nat → RetimedDesign) (n : Nat) :
    Prop where
  first : d.retime delay .minimize = .ok (rounds 0)
  next : ∀ k < n, (rounds k).design.retime delay .minimize = .ok (rounds (k + 1))

lemma Design.Rounds.settled {d : Design} {rounds : Nat → RetimedDesign} {n : Nat}
    (h : d.Rounds delay rounds n) (hd : d.Retimable) (hfit : d.DelaysFit delay) {k : Nat}
    (hk : k ≤ n) :
    (rounds k).design.Retimable ∧ (rounds k).design.Settled delay (rounds 0).reports := by
  induction k with
  | zero =>
    have hto := hd.retimesTo h.first
    exact ⟨hto.retimable hd, hto.settled hd hfit⟩
  | succ k ih =>
    obtain ⟨hretimable, hsettled⟩ := ih (by omega)
    have hto := hretimable.retimesTo (h.next k (by omega))
    exact ⟨hto.retimable hretimable, hsettled.retime hto hretimable⟩

/-- Every report of a later round has the period of the first round, before and after. -/
lemma Design.Rounds.periods_eq {d : Design} {rounds : Nat → RetimedDesign} {n : Nat}
    (h : d.Rounds delay rounds n) (hd : d.Retimable) (hfit : d.DelaysFit delay) {k : Nat}
    (hk : k < n) {report : RetimingReport} (hreport : report ∈ (rounds (k + 1)).reports) :
    ∃ first ∈ (rounds 0).reports, first.module = report.module ∧
      report.initialPeriod = first.period ∧ report.period = first.period := by
  obtain ⟨hretimable, hsettled⟩ := h.settled hd hfit (k := k) (by omega)
  exact hsettled.periods_eq (hretimable.retimesTo (h.next k hk)) hretimable hreport

/-! ### Built designs -/

lemma Module.Built.retimable {m : Module} (h : m.Built) : m.Retimable :=
  ⟨h.wired, h.handshakesAvoidRegisters⟩

end NetlistCompiler
