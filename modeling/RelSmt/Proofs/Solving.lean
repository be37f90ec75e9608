import RelSmt.Solving
import RelSmt.Proofs.Scoped
import RelSmt.Proofs.Term.Checked

/-!
# A backend over many calls

What a call hands to the backend is the script of one program: the base program where no command is
named, and otherwise that of the first command of the label. A label that no command has is refused
(`Encoding.program?_eq_ok`, `Encoding.program?_eq_error`).

Calls and responses stay in step. A call whose specification cannot be lowered, or has no such
command, fails before there is a script and leaves the backend as it was. Every other call leaves
one request, its own, and takes the oldest response that is left, or none if none is left. What
comes of reading that response is the result of this call and changes nothing for the calls after
it.

A run is told as a list of events, one for each thing that is done. Two equations hold after every
part of the run (`Orderly`): the requests are those of the calls that got to the backend, and the
responses taken, followed by those left, are the ones there were at first, followed by those queued
since.
-/

namespace RelSmt

/-! ## Selecting a program -/

namespace Encoding

variable {enc : Encoding} {command : Option String} {p : Program} {e : Fault}

/-- Without a command the base program is solved. A label selects the first command that has it, and
the program is the base program with what the command adds. -/
theorem program?_eq_ok : enc.program? command = .ok p ↔ command = none ∧ p = enc.base ∨
    ∃ c, IsFirstOf (fun c => c.1.label) enc.commands c ∧ command = some c.1.label ∧
      p = enc.base ++ c.2 := by
  cases command with
  | none => simp [program?, eq_comm]
  | some label =>
    have hfind : enc.program? (some label) = .ok p ↔ ∃ c,
        enc.commands.find? (fun c => c.1.label == label) = some c ∧ p = enc.base ++ c.2 := by
      rw [program?, commandProgram?]
      cases enc.commands.find? fun c => c.1.label == label <;> simp [eq_comm]
    simp only [hfind, find?_eq_some_iff_isFirstOf, reduceCtorEq, false_and, false_or,
      Option.some.injEq, and_assoc, eq_comm (a := label)]

/-- The only fault is a label that no command has. -/
theorem program?_eq_error : enc.program? command = .error e ↔
    ∃ label, command = some label ∧ (∀ d ∈ enc.commands, d.1.label ≠ label) ∧
      e = .unresolved (.command label) := by
  cases command with
  | none => simp [program?]
  | some label =>
    have hnone : (enc.commands.find? fun d => d.1.label == label) = none ↔
        ∀ d ∈ enc.commands, d.1.label ≠ label := by
      simp [List.find?_eq_none]
    simp only [program?, commandProgram?, Option.some.injEq, exists_eq_left', ← hnone]
    cases enc.commands.find? fun d => d.1.label == label <;> simp [eq_comm]

end Encoding

/-! ## Calls -/

/-- What is asked of the solver: a specification, how to solve it, and the command if it is one. -/
structure Query where
  spec : Relational.Specification
  options : SolveOptions
  command : Option String

namespace Query

/-- Is there no script, because lowering fails or there is no such command? -/
inductive Refused (q : Query) : Fault → Prop
  | lowering {e : Fault} (h : q.spec.lower q.options.singletonsOnly = .error e) : Refused q e
  | selection {enc : Encoding} {e : Fault} (h : q.spec.lower q.options.singletonsOnly = .ok enc)
      (hcommand : enc.program? q.command = .error e) : Refused q e

/-- Is there a script, and for which program? -/
structure Poses (q : Query) (enc : Encoding) (p : Program) : Prop where
  lower : q.spec.lower q.options.singletonsOnly = .ok enc
  program : enc.program? q.command = .ok p

variable {q : Query} {enc : Encoding} {p : Program} {e : Fault}

theorem refused_or_poses (q : Query) : (∃ e, q.Refused e) ∨ ∃ enc p, q.Poses enc p := by
  cases hlower : q.spec.lower q.options.singletonsOnly with
  | error e => exact Or.inl ⟨e, .lowering hlower⟩
  | ok enc =>
    cases hcommand : enc.program? q.command with
    | error e => exact Or.inl ⟨e, .selection hlower hcommand⟩
    | ok p => exact Or.inr ⟨enc, p, hlower, hcommand⟩

/-- What the backend is asked. -/
def request (q : Query) (p : Program) : String × Option Nat :=
  (p.script q.options.cores, q.options.limit)

/-- Solving with a backend. -/
def solve (q : Query) (b : Backend) : Checked Solution × Backend :=
  q.spec.solve q.options q.command b

theorem solve_of_refused (h : q.Refused e) (b : Backend) : q.solve b = (.error e, b) := by
  cases h with
  | lowering h =>
    rw [solve, Relational.Specification.solve, h]
    rfl
  | selection h hcommand =>
    simp only [solve, Relational.Specification.solve, h, bind, Except.bind, hcommand]

theorem solve_of_poses (h : q.Poses enc p) (b : Backend) : q.solve b =
    ((Outcome.ofResponse enc (b.responses.head?.getD .unknown)).map fun o =>
        ⟨o, p.functions.length, p.assertions.length⟩,
      { responses := b.responses.tail, requests := b.requests ++ [q.request p] }) := by
  simp only [solve, Relational.Specification.solve, h.lower, bind, Except.bind, h.program]
  rfl

end Query

/-! ## Responses -/

/-- What reading a response comes to. There is an instance exactly where the model that was sent can
be read and reconstructed, a negative verdict exactly where it was given with a core that can be
read or without one, and no verdict exactly where the backend had none or ran out of time. Whatever
else there is, is the fault of reading or of reconstruction. -/
structure Response.ReadsAs (enc : Encoding) (r : Response) (x : Checked Outcome) : Prop where
  sat (i : Instance) : x = .ok (.sat i) ↔
    ∃ text m, r = .sat text ∧ Reply.model text = .ok m ∧ Instance.ofModel enc m = .ok i
  unsat (core : Option UnsatCore) : x = .ok (.unsat core) ↔ r = .unsat none ∧ core = none ∨
    ∃ text c, r = .unsat (some text) ∧ Reply.unsatCore text = .ok c ∧ core = some c
  unknown : x = .ok .unknown ↔ r = .unknown ∨ r = .timeout
  fault (e : Fault) : x = .error e ↔
    (∃ text, r = .sat text ∧ (Reply.model text = .error e ∨
      ∃ m, Reply.model text = .ok m ∧ Instance.ofModel enc m = .error e)) ∨
    ∃ text, r = .unsat (some text) ∧ Reply.unsatCore text = .error e

theorem Response.readsAs_ofResponse (enc : Encoding) (r : Response) :
    r.ReadsAs enc (Outcome.ofResponse enc r) := by
  cases r with
  | sat text =>
    cases hmodel : Reply.model text with
    | error e =>
      have hx : Outcome.ofResponse enc (.sat text) = .error e := by
        rw [Outcome.ofResponse, hmodel]
        rfl
      constructor <;> simp [hx, hmodel]
    | ok m =>
      have hx : Outcome.ofResponse enc (.sat text) = (Instance.ofModel enc m).map .sat := by
        rw [Outcome.ofResponse, hmodel]
        rfl
      cases hinstance : Instance.ofModel enc m <;>
        constructor <;> simp [hx, hmodel, hinstance, Except.map]
  | unsat text =>
    cases text with
    | none => constructor <;> simp [Outcome.ofResponse, eq_comm]
    | some text =>
      have hx : Outcome.ofResponse enc (.unsat (some text)) =
          (Reply.unsatCore text).map fun core => .unsat (some core) := rfl
      cases hcore : Reply.unsatCore text <;> constructor <;> simp [hx, hcore, Except.map, eq_comm]
  | unknown => constructor <;> simp [Outcome.ofResponse]
  | timeout => constructor <;> simp [Outcome.ofResponse]

/-! ## Runs -/

/-- What can be done with a backend. -/
inductive Action where
  | queue (r : Response)
  | solve (q : Query)

namespace Backend

/-- Does one thing with a backend. Only a call has a result. -/
def act (b : Backend) : Action → Option (Checked Solution) × Backend
  | .queue r => (none, b.push r)
  | .solve q => (some (q.solve b).1, (q.solve b).2)

/-- Does one thing after the other, and gives the result of each. -/
def run (b : Backend) : List Action → List (Option (Checked Solution)) × Backend
  | [] => ([], b)
  | a :: as => ((b.act a).1 :: ((b.act a).2.run as).1, ((b.act a).2.run as).2)

end Backend

/-- One thing that was done. A call was refused, or it got to the backend and took a response, if
one was left. -/
inductive Event where
  | queued (r : Response)
  | refused (q : Query) (e : Fault)
  | answered (q : Query) (enc : Encoding) (p : Program) (taken : Option Response)

namespace Event

/-- What was to be done. -/
def action : Event → Action
  | queued r => .queue r
  | refused q _ => .solve q
  | answered q _ _ _ => .solve q

/-- The request that was left. -/
def request? : Event → Option (String × Option Nat)
  | answered q _ p _ => some (q.request p)
  | _ => none

/-- The response that was taken. -/
def taken? : Event → Option Response
  | answered _ _ _ taken => taken
  | _ => none

/-- The response that was added. -/
def queued? : Event → Option Response
  | queued r => some r
  | _ => none

/-- What came of it. A call that was refused has its fault as the result, and one that was answered
what the response reads as, if there was one. -/
inductive Returns : Event → Option (Checked Solution) → Prop
  | queued {r : Response} : Returns (.queued r) none
  | refused {q : Query} {e : Fault} (h : q.Refused e) : Returns (.refused q e) (some (.error e))
  | answered {q : Query} {enc : Encoding} {p : Program} {taken : Option Response}
      {x : Checked Outcome} (h : q.Poses enc p) (hx : (taken.getD .unknown).ReadsAs enc x) :
      Returns (.answered q enc p taken)
        (some (x.map fun o => ⟨o, p.functions.length, p.assertions.length⟩))

end Event

namespace Backend

/-- What an event does to a backend. Refused calls do nothing to it; the others take the response in
front, if there is one, and leave their request. -/
inductive Step : Backend → Event → Backend → Prop
  | queued {rs : List Response} {qs : List (String × Option Nat)} {r : Response} :
      Step ⟨rs, qs⟩ (.queued r) ⟨rs ++ [r], qs⟩
  | refused {b : Backend} {q : Query} {e : Fault} : Step b (.refused q e) b
  | answered {rs : List Response} {qs : List (String × Option Nat)} {q : Query} {enc : Encoding}
      {p : Program} {r : Response} :
      Step ⟨r :: rs, qs⟩ (.answered q enc p (some r)) ⟨rs, qs ++ [q.request p]⟩
  | starved {qs : List (String × Option Nat)} {q : Query} {enc : Encoding} {p : Program} :
      Step ⟨[], qs⟩ (.answered q enc p none) ⟨[], qs ++ [q.request p]⟩

/-- What several events do to a backend. -/
inductive Steps : Backend → List Event → Backend → Prop
  | nil {b : Backend} : Steps b [] b
  | cons {b b' b'' : Backend} {ev : Event} {log : List Event} (h : Step b ev b')
      (hs : Steps b' log b'') : Steps b (ev :: log) b''

/-- Are requests and responses in step with what was done? -/
structure Orderly (b : Backend) (log : List Event) (b' : Backend) : Prop where
  /-- There is a request for each call that got to the backend. -/
  requests : b'.requests = b.requests ++ log.filterMap Event.request?
  /-- Responses are taken in the order in which they were queued. -/
  responses : log.filterMap Event.taken? ++ b'.responses =
    b.responses ++ log.filterMap Event.queued?

variable {b b' b'' : Backend} {ev : Event} {log log' : List Event}

theorem Step.orderly (h : Step b ev b') : Orderly b [ev] b' := by
  cases h with
  | queued => exact ⟨(List.append_nil _).symm, rfl⟩
  | refused => exact ⟨(List.append_nil _).symm, (List.append_nil _).symm⟩
  | answered => exact ⟨rfl, (List.append_nil _).symm⟩
  | starved => exact ⟨rfl, rfl⟩

theorem Orderly.trans (h : Orderly b log b') (h' : Orderly b' log' b'') :
    Orderly b (log ++ log') b'' where
  requests := by
    rw [h'.requests, h.requests, List.filterMap_append, List.append_assoc]
  responses := by
    rw [List.filterMap_append, List.filterMap_append, List.append_assoc, h'.responses,
      ← List.append_assoc, h.responses, List.append_assoc]

theorem Steps.orderly (h : Steps b log b') : Orderly b log b' := by
  induction h with
  | nil => exact ⟨(List.append_nil _).symm, (List.append_nil _).symm⟩
  | cons h _ ih => exact h.orderly.trans ih

theorem Steps.exists_of_append (h : Steps b (log ++ log') b'') :
    ∃ b', Steps b log b' ∧ Steps b' log' b'' := by
  induction log generalizing b with
  | nil => exact ⟨b, .nil, h⟩
  | cons ev log ih =>
    cases h with
    | cons hstep hrest =>
      obtain ⟨b', hlog, hlog'⟩ := ih hrest
      exact ⟨b', .cons hstep hlog, hlog'⟩

/-- Whatever is done is an event. -/
theorem exists_step (b : Backend) (a : Action) :
    ∃ ev : Event, ev.action = a ∧ ev.Returns (b.act a).1 ∧ Step b ev (b.act a).2 := by
  cases a with
  | queue r => exact ⟨.queued r, rfl, .queued, .queued⟩
  | solve q =>
    rcases q.refused_or_poses with ⟨e, hrefused⟩ | ⟨enc, p, hposes⟩
    · refine ⟨.refused q e, rfl, ?_, ?_⟩ <;> rw [act, q.solve_of_refused hrefused]
      · exact .refused hrefused
      · exact .refused
    · refine ⟨.answered q enc p b.responses.head?, rfl, ?_, ?_⟩ <;>
        rw [act, q.solve_of_poses hposes]
      · exact .answered hposes (Response.readsAs_ofResponse enc _)
      · obtain ⟨_ | ⟨r, rs⟩, qs⟩ := b
        · exact .starved
        · exact .answered

/-- A run is a list of events, one for each thing that is done. -/
theorem exists_steps (b : Backend) (as : List Action) : ∃ log : List Event,
    log.map Event.action = as ∧ List.Forall₂ Event.Returns log (b.run as).1 ∧
      Steps b log (b.run as).2 := by
  induction as generalizing b with
  | nil => exact ⟨[], rfl, .nil, .nil⟩
  | cons a as ih =>
    obtain ⟨ev, haction, hreturns, hstep⟩ := exists_step b a
    obtain ⟨log, hactions, hall, hsteps⟩ := ih (b.act a).2
    exact ⟨ev :: log, by rw [List.map_cons, haction, hactions], .cons hreturns hall,
      .cons hstep hsteps⟩

/-- What happened tells what was done. -/
theorem Step.eq_act {x : Option (Checked Solution)} (h : Step b ev b') (hreturns : ev.Returns x) :
    (b.act ev.action).2 = b' := by
  cases hreturns with
  | queued =>
    cases h
    rfl
  | refused hrefused =>
    cases h
    exact congrArg Prod.snd (Query.solve_of_refused hrefused b)
  | answered hposes _ =>
    have hact := congrArg Prod.snd (Query.solve_of_poses hposes b)
    cases h <;> exact hact

theorem Steps.eq_run (h : Steps b log b') (hreturns : ∀ ev ∈ log, ∃ x, ev.Returns x) :
    (b.run (log.map Event.action)).2 = b' := by
  induction h with
  | nil => rfl
  | cons hstep _ ih =>
    obtain ⟨⟨x, hx⟩, hrest⟩ := List.forall_mem_cons.1 hreturns
    rw [List.map_cons, run, hstep.eq_act hx]
    exact ih hrest

/-- The response that a call takes decides the result of this call, and nothing after it. -/
theorem run_solve_of_poses {q : Query} {enc : Encoding} {p : Program} (h : q.Poses enc p)
    (r : Response) (rs : List Response) (qs : List (String × Option Nat)) (as : List Action) :
    run ⟨r :: rs, qs⟩ (.solve q :: as) =
      (some ((Outcome.ofResponse enc r).map fun o =>
          ⟨o, p.functions.length, p.assertions.length⟩) ::
        (run ⟨rs, qs ++ [q.request p]⟩ as).1, (run ⟨rs, qs ++ [q.request p]⟩ as).2) := by
  rw [run, act, q.solve_of_poses h]
  rfl

/-- **Calls and responses stay in step.** Whatever is done with a backend, there is an event for
each thing, and its result is what the event returns. At every point of the run, the events before
it have led there and those after it lead on from there, and requests and responses are in step. A
call that takes a response could have taken any other one: all later calls would have had the same
results and left the same backend. -/
theorem run_in_step (b : Backend) (as : List Action) : ∃ log : List Event,
    log.map Event.action = as ∧ List.Forall₂ Event.Returns log (b.run as).1 ∧
    (∀ before after, log = before ++ after →
      Steps b before (b.run (before.map Event.action)).2 ∧
      Steps (b.run (before.map Event.action)).2 after (b.run as).2 ∧
      Orderly b before (b.run (before.map Event.action)).2) ∧
    ∀ before q enc p r after, log = before ++ .answered q enc p (some r) :: after →
      ∃ rs qs, (b.run (before.map Event.action)).2 = ⟨r :: rs, qs⟩ ∧ ∀ r', ∃ x x' xs b',
        run ⟨r :: rs, qs⟩ (.solve q :: after.map Event.action) = (x :: xs, b') ∧
        run ⟨r' :: rs, qs⟩ (.solve q :: after.map Event.action) = (x' :: xs, b') := by
  obtain ⟨log, hactions, hreturns, hsteps⟩ := exists_steps b as
  have hreturned : ∀ ev ∈ log, ∃ x, ev.Returns x := fun ev hev =>
    (exists_mem_of_forall₂ hreturns.flip hev).imp fun _ h => h.2
  -- cut at any point, the events before it lead where what was done before it leads
  have hparts : ∀ before after, log = before ++ after →
      Steps b before (b.run (before.map Event.action)).2 ∧
      Steps (b.run (before.map Event.action)).2 after (b.run as).2 := by
    rintro before after rfl
    obtain ⟨b', hbefore, hafter⟩ := hsteps.exists_of_append
    rw [hbefore.eq_run fun ev hev => hreturned ev (List.mem_append_left _ hev)]
    exact ⟨hbefore, hafter⟩
  refine ⟨log, hactions, hreturns, fun before after heq => ?_, ?_⟩
  · obtain ⟨hbefore, hafter⟩ := hparts before after heq
    exact ⟨hbefore, hafter, hbefore.orderly⟩
  · intro before q enc p r after heq
    obtain ⟨-, hafter⟩ := hparts before _ heq
    obtain ⟨x, hx⟩ := hreturned (.answered q enc p (some r)) (by simp [heq])
    cases hx with
    | answered hposes _ =>
      -- the event says that there was a response, so it stood in front of the queue
      generalize (b.run (before.map Event.action)).2 = b₁ at hafter ⊢
      cases hafter with
      | cons hstep _ =>
        cases hstep with
        | answered =>
          exact ⟨_, _, rfl, fun r' => ⟨_, _, _, _, run_solve_of_poses hposes r _ _ _,
            run_solve_of_poses hposes r' _ _ _⟩⟩

/-- The verdict in the queue is for the first call that has a script. -/
example :
    let q : Query := ⟨{}, {}, none⟩
    let done := run {} [.queue (.unsat none), .solve { q with command := some "show" }, .solve q,
      .solve q]
    done.1.map (Option.map fun x => x.toOption.map (·.outcome.isUnsat)) =
      [none, some none, some (some true), some (some false)] ∧ done.2.requests.length = 2 := by
  decide +kernel

end Backend

end RelSmt
