import Stencil.Delivery
import Stencil.Proofs.Run
/-!
# Runs with one sink

Documents are evaluated one after the other, and the outcomes go to one sink (`Job.runAll`). What a
mailbox gets of one outcome is told case by case (`Mailbox.Receives`): a diagnostic of a failure, a
render with the next number where there is something to show, and nothing otherwise. Along a row of
jobs a mailbox then holds the renders and the diagnostics of all outcomes in their order, and
numbers the renders alone (`runAll_mailbox`).

A sink that refuses renders, or gives no ids, changes nothing about the results but the ids
(`run_of_silent`).
-/

namespace Stencil

open Evaluator (Evaluation)

namespace Evaluator.Evaluation

variable {e : Evaluation}

/-- An evaluation has something to show: text, elements or attachments. -/
def Shows (e : Evaluation) : Prop :=
  e.text ≠ [] ∨ e.artifacts.elements ≠ [] ∨ e.artifacts.attachments ≠ []

instance (e : Evaluation) : Decidable e.Shows := inferInstanceAs (Decidable (_ ∨ _))

/-- What is shown of an evaluation. -/
def shown (e : Evaluation) : Render := ⟨if e.text = [] then none else some e.text, e.artifacts⟩

/-- A run gives a render where there is something to show. -/
theorem render?_eq_ite (e : Evaluation) : e.render? = if e.Shows then some e.shown else none := by
  have hshows : (!e.text.isEmpty || e.artifacts.hasContent) = true ↔ e.Shows := by
    simp [Shows, Artifacts.hasContent]
  rw [render?, shown]
  simp only [hshows, List.isEmpty_iff]

end Evaluator.Evaluation

/-! ### What one run gives -/

/-- The render that an outcome gives, if there is something to show. -/
def renderOf? : Except EvalError Evaluation → Option Render
  | .ok e => if e.Shows then some e.shown else none
  | .error _ => none

/-- The diagnostic of a failure. -/
def diagnosticOf? : Except EvalError Evaluation → Option Diagnostic
  | .ok _ => none
  | .error e => some e.diagnostic

/-- What becomes of a mailbox with an outcome, and the result that is returned. -/
inductive Mailbox.Receives (m : Mailbox) :
    Except EvalError Evaluation → RunResult → Mailbox → Prop where
  | failed (e : EvalError) :
      m.Receives (.error e) ⟨true, none, none, .empty⟩
        ⟨m.renders, m.diagnostics ++ [e.diagnostic]⟩
  | shown (e : Evaluation) (hshows : e.Shows) :
      m.Receives (.ok e)
        ⟨false, some ("msg-".toList ++ Nat.toDigits 10 (m.renders.length + 1)), some e.text,
          e.artifacts⟩
        ⟨m.renders ++ [e.shown], m.diagnostics⟩
  | silent (e : Evaluation) (hsilent : ¬ e.Shows) :
      m.Receives (.ok e) ⟨false, e.artifacts.message, some e.text, e.artifacts⟩ m

/-- A delivery to a mailbox is what the outcome says. -/
theorem Mailbox.receives_deliver (m : Mailbox) (result : Except EvalError Evaluation) :
    m.Receives result (Evaluator.deliver sink result m).1 (Evaluator.deliver sink result m).2 := by
  cases result with
  | error e => exact .failed e
  | ok e =>
    rw [Evaluator.deliver]
    by_cases hshows : e.Shows
    · simp only [e.render?_eq_ite, if_pos hshows]
      exact .shown e hshows
    · simp only [e.render?_eq_ite, if_neg hshows]
      exact .silent e hshows

namespace Mailbox.Receives

variable {m m' : Mailbox} {result : Except EvalError Evaluation} {r : RunResult}

/-- Renders are added at the end, one at most. -/
theorem renders_eq (h : m.Receives result r m') :
    m'.renders = m.renders ++ (renderOf? result).toList := by
  cases h with
  | failed e => rw [renderOf?, Option.toList_none, List.append_nil]
  | shown e hshows => rw [renderOf?, if_pos hshows, Option.toList_some]
  | silent e hsilent => rw [renderOf?, if_neg hsilent, Option.toList_none, List.append_nil]

/-- So are diagnostics. -/
theorem diagnostics_eq (h : m.Receives result r m') :
    m'.diagnostics = m.diagnostics ++ (diagnosticOf? result).toList := by
  cases h with
  | failed e => rfl
  | shown e hshows => exact (List.append_nil _).symm
  | silent e hsilent => exact (List.append_nil _).symm

/-- A failed run gives nothing but the failure. -/
theorem result_of_error {e : EvalError} (h : m.Receives (.error e) r m') :
    r = ⟨true, none, none, .empty⟩ := by
  cases h
  rfl

/-- The number of a result is that of its render. -/
theorem id_eq (h : m.Receives result r m') (hrender : (renderOf? result).isSome) :
    r.id = some ("msg-".toList ++ Nat.toDigits 10 (m.renders.length + 1)) := by
  cases h with
  | failed e => cases hrender
  | shown e hshows => rfl
  | silent e hsilent =>
    rw [renderOf?, if_neg hsilent] at hrender
    cases hrender

end Mailbox.Receives

/-! ### Runs one after the other -/

/-- A document to evaluate, with the evaluator and the state that it is evaluated from. -/
structure Job where
  evaluator : Evaluator
  source : Text
  state : ExecutionState

namespace Job

variable {σ : Type} {sink : Sink σ} {job : Job} {jobs : List Job} {k : Nat}

def outcome (job : Job) : Except EvalError Evaluation :=
  (job.evaluator.evaluate job.source job.state).result

def run (sink : Sink σ) (job : Job) (data : σ) : RunResult × σ :=
  job.evaluator.run sink job.source job.state data

/-- The results of jobs that are run one after the other, and the sink afterwards. -/
def runAll (sink : Sink σ) : List Job → σ → List RunResult × σ
  | [], data => ([], data)
  | job :: jobs, data =>
    let (result, data') := job.run sink data
    let (results, data'') := runAll sink jobs data'
    (result :: results, data'')

/-- The sink after some jobs. -/
def after (sink : Sink σ) (jobs : List Job) (data : σ) : σ := (runAll sink jobs data).2

/-- Jobs run one behind the other, and the sink goes from one row of them to the next. -/
theorem runAll_append (jobs more : List Job) (data : σ) :
    runAll sink (jobs ++ more) data =
      ((runAll sink jobs data).1 ++ (runAll sink more (after sink jobs data)).1,
        after sink more (after sink jobs data)) := by
  induction jobs generalizing data with
  | nil => rfl
  | cons job jobs ih => simp only [List.cons_append, runAll, ih, after]

/-- Every job gives a result. -/
theorem length_runAll (jobs : List Job) (data : σ) :
    (runAll sink jobs data).1.length = jobs.length := by
  induction jobs generalizing data with
  | nil => rfl
  | cons job jobs ih => simp only [runAll, List.length_cons, ih]

/-- A row of jobs around one of them. -/
theorem eq_take_append (hjob : jobs[k]? = some job) :
    jobs = jobs.take k ++ (job :: jobs.drop (k + 1)) := by
  obtain ⟨hlt, rfl⟩ := List.getElem?_eq_some_iff.1 hjob
  rw [← List.drop_eq_getElem_cons hlt, List.take_append_drop]

/-- A job is run with the sink as the jobs before it left it. -/
theorem getElem?_runAll (hjob : jobs[k]? = some job) (data : σ) :
    (runAll sink jobs data).1[k]? = some (job.run sink (after sink (jobs.take k) data)).1 := by
  have hlen : (runAll sink (jobs.take k) data).1.length = k := by
    rw [length_runAll, List.length_take]
    exact Nat.min_eq_left (List.getElem?_eq_some_iff.1 hjob).1.le
  conv_lhs => rw [eq_take_append hjob, runAll_append]
  simp only
  rw [List.getElem?_append_right hlen.le, hlen, Nat.sub_self]
  rfl

/-- The sink after one more job. -/
theorem after_take_succ (hjob : jobs[k]? = some job) (data : σ) :
    after sink (jobs.take (k + 1)) data =
      (job.run sink (after sink (jobs.take k) data)).2 := by
  obtain ⟨hlt, rfl⟩ := List.getElem?_eq_some_iff.1 hjob
  rw [List.take_succ_eq_append_getElem hlt, after, runAll_append]
  rfl

/-! ### One mailbox -/

/-- The render that a job gives, if there is something to show. -/
def render? (job : Job) : Option Render := renderOf? job.outcome

/-- The diagnostic of a job that fails. -/
def diagnostic? (job : Job) : Option Diagnostic := diagnosticOf? job.outcome

/-- A run is a delivery of its outcome. -/
theorem receives_run (job : Job) (m : Mailbox) :
    m.Receives job.outcome (job.run Mailbox.sink m).1 (job.run Mailbox.sink m).2 :=
  m.receives_deliver job.outcome

/-- A mailbox keeps what it has and gets the renders and diagnostics of the jobs in their order. -/
theorem after_mailbox (jobs : List Job) (m : Mailbox) :
    after Mailbox.sink jobs m =
      ⟨m.renders ++ jobs.filterMap render?, m.diagnostics ++ jobs.filterMap diagnostic?⟩ := by
  induction jobs generalizing m with
  | nil =>
    rw [List.filterMap_nil, List.filterMap_nil, List.append_nil, List.append_nil]
    rfl
  | cons job jobs ih =>
    have hstep := job.receives_run m
    have hrest : after Mailbox.sink (job :: jobs) m =
        after Mailbox.sink jobs (job.run Mailbox.sink m).2 := rfl
    -- the first job gives one render or diagnostic at most
    have hcons : ∀ {β : Type} (f : Job → Option β),
        (job :: jobs).filterMap f = (f job).toList ++ jobs.filterMap f := by
      intro β f
      cases hf : f job with
      | none => rw [List.filterMap_cons_none hf, Option.toList_none, List.nil_append]
      | some b => rw [List.filterMap_cons_some hf, Option.toList_some, List.singleton_append]
    rw [hrest, ih, hstep.renders_eq, hstep.diagnostics_eq, List.append_assoc, List.append_assoc,
      hcons, hcons]
    rfl

/-- What is told of the results of some jobs and of the mailbox that they went to, one behind the
other. -/
structure Collected (jobs : List Job) (results : List RunResult) (m : Mailbox) : Prop where
  length_eq : results.length = jobs.length
  /-- A run changes the mailbox as its outcome says. -/
  receives : ∀ (k : Nat) (job : Job), jobs[k]? = some job → ∃ r, results[k]? = some r ∧
    (after Mailbox.sink (jobs.take k) .empty).Receives job.outcome r
      (after Mailbox.sink (jobs.take (k + 1)) .empty)
  renders_eq : m.renders = jobs.filterMap render?
  diagnostics_eq : m.diagnostics = jobs.filterMap diagnostic?
  /-- The renders are numbered among themselves, and a result has the number of its render. -/
  numbered : ∀ (k : Nat) (job : Job) (render : Render), jobs[k]? = some job →
    job.render? = some render → ∃ r n, results[k]? = some r ∧ m.renders[n]? = some render ∧
      n = ((jobs.take k).filterMap render?).length ∧
      r.id = some ("msg-".toList ++ Nat.toDigits 10 (n + 1))

/-- The results of a run of all jobs are what the mailbox collected. -/
theorem collected_runAll (jobs : List Job) :
    Collected jobs (runAll Mailbox.sink jobs .empty).1 (runAll Mailbox.sink jobs .empty).2 := by
  have hafter : ∀ jobs : List Job, after Mailbox.sink jobs Mailbox.empty =
      ⟨jobs.filterMap render?, jobs.filterMap diagnostic?⟩ := fun jobs => after_mailbox jobs _
  have hrenders : (runAll Mailbox.sink jobs .empty).2.renders = jobs.filterMap render? :=
    congrArg Mailbox.renders (hafter jobs)
  have hreceives : ∀ (k : Nat) (job : Job), jobs[k]? = some job →
      ∃ r, (runAll Mailbox.sink jobs .empty).1[k]? = some r ∧
        (after Mailbox.sink (jobs.take k) .empty).Receives job.outcome r
          (after Mailbox.sink (jobs.take (k + 1)) .empty) := by
    intro k job hjob
    refine ⟨_, getElem?_runAll hjob Mailbox.empty, ?_⟩
    rw [after_take_succ hjob]
    exact job.receives_run _
  refine ⟨length_runAll jobs _, hreceives, hrenders, congrArg Mailbox.diagnostics (hafter jobs), ?_⟩
  intro k job render hjob hrender
  obtain ⟨r, hr, hjobReceives⟩ := hreceives k job hjob
  have hid := hjobReceives.id_eq (Option.isSome_of_eq_some hrender)
  rw [hafter] at hid
  refine ⟨r, _, hr, ?_, rfl, hid⟩
  -- the render stands behind those of the jobs before
  have hsplit : jobs.filterMap render? = (jobs.take k).filterMap render? ++
      render :: (jobs.drop (k + 1)).filterMap render? := by
    conv_lhs => rw [eq_take_append hjob, List.filterMap_append, List.filterMap_cons_some hrender]
  rw [hrenders, hsplit, List.getElem?_append_right (Nat.le_refl _), Nat.sub_self]
  rfl

/-! ### Sinks without ids -/

/-- A sink, as it stands, gives no id for any render, or refuses it. -/
def Silent (sink : Sink σ) (data : σ) : Prop :=
  ∀ r, (sink.deliver r data).1 = .ok none ∨ ∃ why, (sink.deliver r data).1 = .error why

/-- A silent sink leaves a success the message of its evaluation for an id. -/
theorem run_of_silent {e : Evaluation} {data : σ} (hsink : Silent sink data)
    (he : job.outcome = .ok e) :
    (job.run sink data).1 = ⟨false, e.artifacts.message, some e.text, e.artifacts⟩ := by
  have hrun : job.run sink data = Evaluator.deliver sink (.ok e) data :=
    congrArg (Evaluator.deliver sink · data) he
  rw [hrun, Evaluator.deliver]
  -- nothing to show, no id given, or an error: in each case the id is the one of the artifacts
  cases e.render? with
  | none => rfl
  | some r =>
    rcases hsink r with hnone | ⟨why, herror⟩
    · simp only [hnone]
      rfl
    · simp only [herror]
      rfl

/-- Jobs that are run one after the other with one mailbox: it takes what each outcome gives, keeps
renders and diagnostics in the order of the jobs, and numbers the renders among themselves. A sink
that is silent when it comes to a success does not make it a failure; the result has the message of
the evaluation for an id. -/
theorem runAll_mailbox (jobs : List Job) :
    Collected jobs (runAll Mailbox.sink jobs .empty).1 (runAll Mailbox.sink jobs .empty).2 ∧
    ∀ (σ : Type) (sink : Sink σ) (data : σ) (k : Nat) (job : Job) (e : Evaluation),
      jobs[k]? = some job → job.outcome = .ok e → Silent sink (after sink (jobs.take k) data) →
        (runAll sink jobs data).1[k]? =
          some ⟨false, e.artifacts.message, some e.text, e.artifacts⟩ := by
  refine ⟨collected_runAll jobs, fun σ sink data k job e hjob he hsink => ?_⟩
  rw [getElem?_runAll hjob, run_of_silent hsink he]

/-- A sink that refuses every render. -/
def refusing : Sink Unit := ⟨fun _ data => (.error "full".toList, data), fun _ data => data⟩

/-- A text, a block without an end, an empty text, and a text with a message to take its place. -/
def mixedJobs : List Job :=
  ["a", "$if[]", "$empty", "b$other"].map fun source =>
    ⟨.withFunctions [.constant "empty".toList [],
      ⟨⟨"other".toList⟩, false, [], fun _ _ state =>
        (.patched { Patch.keep with message := some ['x'] }, state)⟩],
      source.toList, .initial⟩

/-- The failure and the empty text take no number, and the message of the last text is its id only
where the sink refuses the text. -/
theorem mixedJobs_collected :
    (runAll Mailbox.sink mixedJobs .empty).1[1]? = some ⟨true, none, none, .empty⟩ ∧
    (runAll Mailbox.sink mixedJobs .empty).1[3]?.map (·.id) = some (some "msg-2".toList) ∧
    (runAll Mailbox.sink mixedJobs .empty).2.renders.map (·.text) = [some ['a'], some ['b']] ∧
    (runAll Mailbox.sink mixedJobs .empty).2.diagnostics.length = 1 ∧
    (runAll refusing mixedJobs ()).1[3]?.map (fun r => (r.failed, r.id, r.text)) =
      some (false, some ['x'], some ['b']) := by
  obtain ⟨hcollected, hsilent⟩ := runAll_mailbox mixedJobs
  refine ⟨?_, ?_, ?_, ?_, ?_⟩
  · obtain ⟨r, hr, hreceives⟩ := hcollected.receives 1 mixedJobs[1] rfl
    have hfailed : mixedJobs[1].outcome.toOption.isNone := by decide +kernel
    cases houtcome : mixedJobs[1].outcome with
    | error e =>
      rw [houtcome] at hreceives
      rw [hr, hreceives.result_of_error]
    | ok e =>
      rw [houtcome] at hfailed
      cases hfailed
  · obtain ⟨r, n, hr, -, hn, hid⟩ := hcollected.numbered 3 _ ⟨some ['b'],
      { Artifacts.empty with message := some ['x'] }⟩ rfl (by decide +kernel)
    have hone : n = 1 := hn.trans (by decide +kernel)
    rw [hr, Option.map_some, hid, hone]
    decide
  · rw [hcollected.renders_eq]
    decide +kernel
  · rw [hcollected.diagnostics_eq]
    decide +kernel
  · have hshown : mixedJobs[3].outcome.toOption.map (fun e => (e.artifacts.message, e.text)) =
        some (some ['x'], ['b']) := by
      decide +kernel
    cases houtcome : mixedJobs[3].outcome with
    | error e =>
      rw [houtcome] at hshown
      cases hshown
    | ok e =>
      rw [houtcome] at hshown
      obtain ⟨hmessage, htext⟩ := Prod.mk.inj (Option.some.inj hshown)
      rw [hsilent Unit refusing () 3 _ e rfl houtcome fun _ => .inr ⟨_, rfl⟩, ← hmessage, ← htext]
      rfl

end Job

end Stencil
