import ModelServer.Library.Runs
import Mathlib.Data.List.Induction

namespace ModelServer.Startup

/-- What the code takes from urijs. `new URI(..)` throws for some texts. -/
structure UriLibrary (U : Type) where
  newURI : String → Option U
  segment : U → String → U

structure ServerConfiguration (U : Type) where
  workspaceRoot : U
  uiSchemaFolder : U
  deriving DecidableEq, Repr

inductive PingOutcome
  | resolved (available : Bool)
  | rejected (e : String)
  deriving DecidableEq, Repr

namespace PingOutcome

def available : PingOutcome → Bool
  | resolved available => available
  | rejected _ => false

def logged : PingOutcome → List String
  | resolved _ => []
  | rejected e => ["Model Server not ready yet: " ++ e]

end PingOutcome

/-- The loop of `waitForReady` over the outcomes of its pings; nothing is returned while it waits for another one. -/
def waitLoop (available : Bool) : Nat → List PingOutcome → Option Bool
  | 0, _ => some available
  | numberOfTries + 1, outcomes =>
    if available then some true
    else
      match outcomes with
      | [] => none
      | outcome :: rest => waitLoop outcome.available numberOfTries rest

def waitForReady (numberOfTries : Nat) (outcomes : List PingOutcome) : Option Bool := waitLoop false numberOfTries outcomes

/-- Where a handler of `onWorkspaceChanged` stands: it awaits a ping, or the timeout after one that failed, or it has
    come to the end of the loop. -/
inductive Phase
  | pinging
  | sleeping
  | done (serverLoaded : Bool)
  deriving DecidableEq, Repr

structure Handler (U : Type) where
  configuration : ServerConfiguration U
  numberOfTries : Nat
  phase : Phase
  outcomes : List PingOutcome := []
  deriving DecidableEq, Repr

/-- The handlers are numbered in the order in which they started. The number of the handler that calls
    `configureServer` is recorded for the statements only. -/
structure Frontend (U : Type) where
  handlers : List (Handler U)
  configured : List (Nat × ServerConfiguration U)
  console : List String

inductive Action
  | workspaceChanged (workspace : List (Option String))
  | pinged (handler : Nat) (outcome : PingOutcome)
  | timeout (handler : Nat)

section

variable {U : Type}

namespace Frontend

def start : Frontend U := ⟨[], [], []⟩

/-- The test of the loop, and what stands after the loop. -/
def continueLoop (s : Frontend U) (i : Nat) (h : Handler U) (available : Bool) : Frontend U :=
  if !available && decide (0 < h.numberOfTries) then
    { s with handlers := s.handlers.set i { h with phase := .pinging } }
  else if available then
    { handlers := s.handlers.set i { h with phase := .done true }
      configured := s.configured ++ [(i, h.configuration)]
      console := s.console ++ ["Model Server ready"] }
  else
    { s with
      handlers := s.handlers.set i { h with phase := .done false }
      console := s.console ++ ["Model Server failed to load"] }

def workspaceChanged (lib : UriLibrary U) (numberOfTries : Nat) (s : Frontend U) (workspace : List (Option String)) :
    Frontend U :=
  match workspace with
  | some resource :: _ =>
    match lib.newURI resource with
    | some workspaceRoot =>
      let uiSchemaFolder := lib.segment workspaceRoot ".ui-schemas"
      let h : Handler U := { configuration := { workspaceRoot, uiSchemaFolder }, numberOfTries, phase := .pinging }
      continueLoop { s with handlers := s.handlers ++ [h] } s.handlers.length h false
    | none => s
  | _ => s

def pinged (s : Frontend U) (i : Nat) (outcome : PingOutcome) : Option (Frontend U) :=
  match s.handlers[i]? with
  | some h =>
    if h.phase = .pinging then
      let h := { h with outcomes := h.outcomes ++ [outcome] }
      let s := { s with console := s.console ++ outcome.logged }
      if outcome.available then some (s.continueLoop i { h with numberOfTries := h.numberOfTries - 1 } true)
      else some { s with handlers := s.handlers.set i { h with phase := .sleeping } }
    else none
  | none => none

def timeout (s : Frontend U) (i : Nat) : Option (Frontend U) :=
  match s.handlers[i]? with
  | some h =>
    if h.phase = .sleeping then some (s.continueLoop i { h with numberOfTries := h.numberOfTries - 1 } false)
    else none
  | none => none

end Frontend

def step (lib : UriLibrary U) (numberOfTries : Nat) (s : Frontend U) : Action → Option (Frontend U)
  | .workspaceChanged workspace => some (s.workspaceChanged lib numberOfTries workspace)
  | .pinged i outcome => s.pinged i outcome
  | .timeout i => s.timeout i

def system (lib : UriLibrary U) (numberOfTries : Nat) : Runs.System (Frontend U) Action where
  init := .start
  step := step lib numberOfTries

/-- What a handler has been through, in each of its phases. -/
def Handler.Sound (numberOfTries : Nat) (h : Handler U) : Prop :=
  match h.phase with
  | .pinging =>
    0 < h.numberOfTries ∧ (∀ o ∈ h.outcomes, o.available = false) ∧ h.outcomes.length + h.numberOfTries = numberOfTries
  | .sleeping =>
    0 < h.numberOfTries ∧ (∀ o ∈ h.outcomes, o.available = false) ∧
      h.outcomes.length + h.numberOfTries = numberOfTries + 1
  | .done true =>
    ∃ failed last, h.outcomes = failed ++ [last] ∧ (∀ o ∈ failed, o.available = false) ∧ last.available = true ∧
      h.outcomes.length ≤ numberOfTries
  | .done false => (∀ o ∈ h.outcomes, o.available = false) ∧ h.outcomes.length = numberOfTries

structure Configured (s : Frontend U) : Prop where
  once : (s.configured.map Prod.fst).Nodup
  ready : ∀ i c, (i, c) ∈ s.configured ↔
    ∃ h : Handler U, s.handlers[i]? = some h ∧ h.phase = .done true ∧ h.configuration = c

variable {lib : UriLibrary U} {numberOfTries : Nat} {s s' : Frontend U}

theorem Configured.start : Configured (.start : Frontend U) where
  once := List.nodup_nil
  ready i c := by simp [Frontend.start]

theorem getElem?_set_present {hs : List (Handler U)} {i : Nat} {h : Handler U} (present : hs[i]? = some h)
    (h' : Handler U) (j : Nat) : (hs.set i h')[j]? = if j = i then some h' else hs[j]? := by
  by_cases same : j = i
  · subst same
    rw [if_pos rfl, List.getElem?_set_self (List.getElem?_eq_some_iff.mp present).1]
  · rw [if_neg same, List.getElem?_set_ne (Ne.symm same)]

theorem Configured.set (c : Configured s) {i : Nat} {h h' : Handler U} (present : s.handlers[i]? = some h)
    (before : h.phase ≠ .done true) (after : h'.phase ≠ .done true) (console : List String) :
    Configured { s with handlers := s.handlers.set i h', console } where
  once := c.once
  ready j configuration := by
    rw [c.ready j configuration]
    simp only [getElem?_set_present present]
    by_cases same : j = i
    · subst same
      simp [present, before, after]
    · simp [same]

theorem Configured.finish (c : Configured s) {i : Nat} {h h' : Handler U} (present : s.handlers[i]? = some h)
    (before : h.phase ≠ .done true) (after : h'.phase = .done true) (console : List String) :
    Configured ⟨s.handlers.set i h', s.configured ++ [(i, h'.configuration)], console⟩ where
  once := by
    rw [List.map_append, List.map_cons, List.map_nil]
    apply List.nodup_append.mpr
    refine ⟨c.once, by simp, ?_⟩
    intro j member k here same
    rw [List.mem_singleton.mp here] at same
    subst same
    rcases List.mem_map.mp member with ⟨⟨j, configuration⟩, inside, rfl⟩
    rcases (c.ready j configuration).mp inside with ⟨h₀, present₀, finished, -⟩
    cases present.symm.trans present₀
    exact before finished
  ready j configuration := by
    simp only [List.mem_append, List.mem_singleton, Prod.mk.injEq, c.ready j configuration,
      getElem?_set_present present]
    by_cases same : j = i
    · subst same
      simp [present, before, after, eq_comm]
    · simp [same]

theorem Configured.append (c : Configured s) {h : Handler U} (unfinished : h.phase ≠ .done true) :
    Configured { s with handlers := s.handlers ++ [h] } where
  once := c.once
  ready i configuration := by
    rw [c.ready i configuration]
    simp only [List.getElem?_append]
    by_cases old : i < s.handlers.length
    · simp [old]
    · rw [List.getElem?_eq_none (by omega)]
      cases place : i - s.handlers.length with
      | zero => simp [old, unfinished]
      | succ k => simp [old]

def Frontend.Sound (numberOfTries : Nat) (s : Frontend U) : Prop :=
  ∀ (i : Nat) (h : Handler U), s.handlers[i]? = some h → h.Sound numberOfTries

theorem Frontend.Sound.set (sound : s.Sound numberOfTries) {i : Nat} {h h' : Handler U}
    (present : s.handlers[i]? = some h) (own : h'.Sound numberOfTries) {configured : List (Nat × ServerConfiguration U)}
    {console : List String} : Frontend.Sound numberOfTries ⟨s.handlers.set i h', configured, console⟩ := by
  intro j hj at_j
  rw [getElem?_set_present present] at at_j
  split at at_j
  · cases at_j
    exact own
  · exact sound j hj at_j

theorem Frontend.Sound.append (sound : s.Sound numberOfTries) {h : Handler U} (own : h.Sound numberOfTries) :
    Frontend.Sound numberOfTries { s with handlers := s.handlers ++ [h] } := by
  intro j hj at_j
  change (s.handlers ++ [h])[j]? = some hj at at_j
  rw [List.getElem?_append] at at_j
  split at at_j
  · exact sound j hj at_j
  · rw [List.getElem?_singleton] at at_j
    split at at_j
    · cases at_j
      exact own
    · cases at_j

def Action.configuration (lib : UriLibrary U) : Action → Option (ServerConfiguration U)
  | .workspaceChanged (some resource :: _) =>
    (lib.newURI resource).map fun workspaceRoot =>
      { workspaceRoot, uiSchemaFolder := lib.segment workspaceRoot ".ui-schemas" }
  | _ => none

theorem workspaceChanged_cases (lib : UriLibrary U) (numberOfTries : Nat) (s : Frontend U)
    (workspace : List (Option String)) :
    ((Action.workspaceChanged workspace).configuration lib = none ∧
        s.workspaceChanged lib numberOfTries workspace = s) ∨
      ∃ configuration : ServerConfiguration U,
        (Action.workspaceChanged workspace).configuration lib = some configuration ∧
          ((0 < numberOfTries ∧ s.workspaceChanged lib numberOfTries workspace =
            { s with handlers := s.handlers ++ [{ configuration, numberOfTries, phase := .pinging }] }) ∨
          (numberOfTries = 0 ∧ s.workspaceChanged lib numberOfTries workspace =
            { s with
              handlers := s.handlers ++ [{ configuration, numberOfTries, phase := .done false }]
              console := s.console ++ ["Model Server failed to load"] })) := by
  unfold Frontend.workspaceChanged Action.configuration
  rcases workspace with _ | ⟨_ | resource, rest⟩
  · exact .inl ⟨rfl, rfl⟩
  · exact .inl ⟨rfl, rfl⟩
  · simp only
    cases lib.newURI resource with
    | none => exact .inl ⟨rfl, rfl⟩
    | some workspaceRoot =>
      refine .inr ⟨_, rfl, ?_⟩
      unfold Frontend.continueLoop
      by_cases some : 0 < numberOfTries
      · exact .inl ⟨some, by simp [some]⟩
      · exact .inr ⟨Nat.eq_zero_of_not_pos some, by simp [some]⟩

theorem pinged_cases {i : Nat} {outcome : PingOutcome} (stepped : s.pinged i outcome = some s') :
    ∃ h, s.handlers[i]? = some h ∧ h.phase = .pinging ∧
      ((outcome.available = true ∧ s' =
          ⟨s.handlers.set i { h with
              outcomes := h.outcomes ++ [outcome], numberOfTries := h.numberOfTries - 1, phase := .done true },
            s.configured ++ [(i, h.configuration)], s.console ++ outcome.logged ++ ["Model Server ready"]⟩) ∨
        (outcome.available = false ∧ s' =
          ⟨s.handlers.set i { h with outcomes := h.outcomes ++ [outcome], phase := .sleeping }, s.configured,
            s.console ++ outcome.logged⟩)) := by
  unfold Frontend.pinged at stepped
  split at stepped
  · rename_i h present
    split at stepped
    · rename_i pinging
      refine ⟨h, present, pinging, ?_⟩
      cases available : outcome.available with
      | true => exact .inl ⟨rfl, by simpa [available, Frontend.continueLoop] using stepped.symm⟩
      | false => exact .inr ⟨rfl, by simpa [available] using stepped.symm⟩
    · cases stepped
  · cases stepped

theorem timeout_cases {i : Nat} (stepped : s.timeout i = some s') :
    ∃ h, s.handlers[i]? = some h ∧ h.phase = .sleeping ∧
      ((0 < h.numberOfTries - 1 ∧ s' =
          { s with
            handlers := s.handlers.set i { h with numberOfTries := h.numberOfTries - 1, phase := .pinging } }) ∨
        (h.numberOfTries - 1 = 0 ∧ s' =
          { s with
            handlers := s.handlers.set i { h with numberOfTries := h.numberOfTries - 1, phase := .done false }
            console := s.console ++ ["Model Server failed to load"] })) := by
  unfold Frontend.timeout at stepped
  split at stepped
  · rename_i h present
    split at stepped
    · rename_i sleeping
      refine ⟨h, present, sleeping, ?_⟩
      by_cases again : 0 < h.numberOfTries - 1
      · exact .inl ⟨again, by simpa [again, Frontend.continueLoop] using stepped.symm⟩
      · exact .inr ⟨Nat.eq_zero_of_not_pos again, by simpa [again, Frontend.continueLoop] using stepped.symm⟩
    · cases stepped
  · cases stepped

section Step

variable {configuration : ServerConfiguration U} {h : Handler U}

theorem Handler.sound_started (some : 0 < numberOfTries) :
    Handler.Sound numberOfTries { configuration, numberOfTries, phase := .pinging } :=
  ⟨some, nofun, Nat.zero_add numberOfTries⟩

theorem Handler.Sound.found (sound : h.Sound numberOfTries) (pinging : h.phase = .pinging) {outcome : PingOutcome}
    (available : outcome.available = true) : Handler.Sound numberOfTries
      { h with outcomes := h.outcomes ++ [outcome], numberOfTries := h.numberOfTries - 1, phase := .done true } := by
  unfold Handler.Sound at sound ⊢
  rw [pinging] at sound
  rcases sound with ⟨some, failed, count⟩
  refine ⟨h.outcomes, outcome, rfl, failed, available, ?_⟩
  rw [List.length_append, List.length_singleton]
  omega

theorem Handler.Sound.missed (sound : h.Sound numberOfTries) (pinging : h.phase = .pinging) {outcome : PingOutcome}
    (unavailable : outcome.available = false) :
    Handler.Sound numberOfTries { h with outcomes := h.outcomes ++ [outcome], phase := .sleeping } := by
  unfold Handler.Sound at sound ⊢
  rw [pinging] at sound
  rcases sound with ⟨some, failed, count⟩
  refine ⟨some, List.forall_mem_append.mpr ⟨failed, List.forall_mem_singleton.mpr unavailable⟩, ?_⟩
  change (h.outcomes ++ [outcome]).length + h.numberOfTries = numberOfTries + 1
  rw [List.length_append, List.length_singleton]
  omega

theorem Handler.Sound.woken (sound : h.Sound numberOfTries) (sleeping : h.phase = .sleeping)
    (again : 0 < h.numberOfTries - 1) :
    Handler.Sound numberOfTries { h with numberOfTries := h.numberOfTries - 1, phase := .pinging } := by
  unfold Handler.Sound at sound ⊢
  rw [sleeping] at sound
  rcases sound with ⟨some, failed, count⟩
  refine ⟨again, failed, ?_⟩
  change h.outcomes.length + (h.numberOfTries - 1) = numberOfTries
  omega

theorem Handler.Sound.gaveUp (sound : h.Sound numberOfTries) (sleeping : h.phase = .sleeping)
    (last : h.numberOfTries - 1 = 0) :
    Handler.Sound numberOfTries { h with numberOfTries := h.numberOfTries - 1, phase := .done false } := by
  unfold Handler.Sound at sound ⊢
  rw [sleeping] at sound
  rcases sound with ⟨some, failed, count⟩
  refine ⟨failed, ?_⟩
  change h.outcomes.length = numberOfTries
  omega

theorem Frontend.Sound.step (sound : s.Sound numberOfTries) {a : Action}
    (stepped : Startup.step lib numberOfTries s a = some s') : s'.Sound numberOfTries := by
  cases a with
  | workspaceChanged workspace =>
    rw [← Option.some.inj stepped]
    rcases workspaceChanged_cases lib numberOfTries s workspace with ⟨-, same⟩ | ⟨_, -, ⟨some, same⟩ | ⟨none, same⟩⟩
    · rwa [same]
    · rw [same]
      exact sound.append (Handler.sound_started some)
    · rw [same]
      exact sound.append ⟨nofun, none.symm⟩
  | pinged i outcome =>
    rcases pinged_cases stepped with ⟨h, present, pinging, ⟨available, rfl⟩ | ⟨unavailable, rfl⟩⟩
    · exact sound.set present ((sound i h present).found pinging available)
    · exact sound.set present ((sound i h present).missed pinging unavailable)
  | timeout i =>
    rcases timeout_cases stepped with ⟨h, present, sleeping, ⟨again, rfl⟩ | ⟨last, rfl⟩⟩
    · exact sound.set present ((sound i h present).woken sleeping again)
    · exact sound.set present ((sound i h present).gaveUp sleeping last)

theorem Configured.step (c : Configured s) {a : Action} (stepped : Startup.step lib numberOfTries s a = some s') :
    Configured s' := by
  cases a with
  | workspaceChanged workspace =>
    rw [← Option.some.inj stepped]
    rcases workspaceChanged_cases lib numberOfTries s workspace with ⟨-, same⟩ | ⟨configuration, -, ⟨-, same⟩ | ⟨-, same⟩⟩
    · rwa [same]
    · rw [same]
      exact c.append (by simp)
    · rw [same]
      have appended := @Configured.append _ s c { configuration, numberOfTries, phase := .done false } (by simp)
      exact ⟨appended.once, appended.ready⟩
  | pinged i outcome =>
    rcases pinged_cases stepped with ⟨h, present, pinging, ⟨-, rfl⟩ | ⟨-, rfl⟩⟩
    · exact c.finish present (by simp [pinging]) rfl _
    · exact c.set present (by simp [pinging]) (by simp) _
  | timeout i =>
    rcases timeout_cases stepped with ⟨h, present, sleeping, ⟨-, rfl⟩ | ⟨-, rfl⟩⟩
    · exact c.set present (by simp [sleeping]) (by simp) _
    · exact c.set present (by simp [sleeping]) (by simp) _

end Step

theorem configurations_set {i : Nat} {h h' : Handler U} (present : s.handlers[i]? = some h)
    (same : h'.configuration = h.configuration) :
    (s.handlers.set i h').map Handler.configuration = s.handlers.map Handler.configuration := by
  apply List.ext_getElem?
  intro j
  rw [List.getElem?_map, getElem?_set_present present, List.getElem?_map]
  by_cases here : j = i
  · rw [if_pos here, here, present, Option.map_some, Option.map_some, same]
  · rw [if_neg here]

theorem configurations_step {a : Action} (stepped : step lib numberOfTries s a = some s') :
    s'.handlers.map Handler.configuration =
      s.handlers.map Handler.configuration ++ (a.configuration lib).toList := by
  cases a with
  | workspaceChanged workspace =>
    rw [← Option.some.inj stepped]
    rcases workspaceChanged_cases lib numberOfTries s workspace with
      ⟨none, same⟩ | ⟨configuration, some, ⟨-, same⟩ | ⟨-, same⟩⟩
    · rw [same, none, Option.toList_none, List.append_nil]
    · rw [same, some, List.map_append]
      rfl
    · rw [same, some, List.map_append]
      rfl
  | pinged i outcome =>
    rcases pinged_cases stepped with ⟨h, present, -, ⟨-, rfl⟩ | ⟨-, rfl⟩⟩
    · exact (configurations_set present (by rfl)).trans (List.append_nil _).symm
    · exact (configurations_set present (by rfl)).trans (List.append_nil _).symm
  | timeout i =>
    rcases timeout_cases stepped with ⟨h, present, -, ⟨-, rfl⟩ | ⟨-, rfl⟩⟩
    · exact (configurations_set present (by rfl)).trans (List.append_nil _).symm
    · exact (configurations_set present (by rfl)).trans (List.append_nil _).symm

theorem configurations_run {ok : Frontend U → Action → Prop} {as : List Action}
    (run : Runs.Run (system lib numberOfTries) ok s as s') :
    s'.handlers.map Handler.configuration =
      s.handlers.map Handler.configuration ++ as.filterMap (Action.configuration lib) := by
  induction run with
  | nil s => rw [List.filterMap_nil, List.append_nil]
  | @cons s₀ s₁ s₂ a as _ stepped _ ih =>
    rw [ih, configurations_step stepped, List.append_assoc, List.filterMap_cons]
    cases a.configuration lib <;> rfl

theorem waitLoop_failed {outcomes : List PingOutcome} (failed : ∀ o ∈ outcomes, o.available = false) (n : Nat) :
    waitLoop false n outcomes = if outcomes.length < n then none else some false := by
  induction outcomes generalizing n with
  | nil => cases n <;> rfl
  | cons o rest ih =>
    rcases List.forall_mem_cons.mp failed with ⟨here, later⟩
    cases n with
    | zero => rfl
    | succ n =>
      simp only [waitLoop, Bool.false_eq_true, if_false, here, ih later, List.length_cons, Nat.add_lt_add_iff_right]

theorem waitLoop_found {failed : List PingOutcome} (misses : ∀ o ∈ failed, o.available = false) {last : PingOutcome}
    (available : last.available = true) {n : Nat} (inside : failed.length < n) :
    waitLoop false n (failed ++ [last]) = some true := by
  induction failed generalizing n with
  | nil =>
    cases n with
    | zero => cases inside
    | succ n =>
      simp only [List.nil_append, waitLoop, Bool.false_eq_true, if_false, available]
      cases n <;> rfl
  | cons o rest ih =>
    rcases List.forall_mem_cons.mp misses with ⟨here, later⟩
    cases n with
    | zero => cases inside
    | succ n =>
      simp only [List.cons_append, waitLoop, Bool.false_eq_true, if_false, here]
      exact ih later (Nat.lt_of_succ_lt_succ inside)

/-- A handler has come as far as the loop on the outcomes of its own pings. -/
structure Handler.Follows (numberOfTries : Nat) (h : Handler U) : Prop where
  tries : h.outcomes.length ≤ numberOfTries
  waiting : h.phase = .pinging → waitForReady numberOfTries h.outcomes = none
  returned : ∀ serverLoaded, h.phase = .done serverLoaded → waitForReady numberOfTries h.outcomes = some serverLoaded

theorem Handler.Sound.follows {h : Handler U} (sound : h.Sound numberOfTries) : h.Follows numberOfTries := by
  unfold Handler.Sound at sound
  cases phase : h.phase with
  | pinging =>
    rw [phase] at sound
    rcases sound with ⟨some, failed, count⟩
    have waits : waitForReady numberOfTries h.outcomes = none := by
      rw [waitForReady, waitLoop_failed failed, if_pos (by omega)]
    exact ⟨by omega, fun _ => waits, fun _ done => (by cases phase.symm.trans done)⟩
  | sleeping =>
    rw [phase] at sound
    rcases sound with ⟨some, failed, count⟩
    exact ⟨by omega, fun pinging => (by cases phase.symm.trans pinging), fun _ done => (by cases phase.symm.trans done)⟩
  | done serverLoaded =>
    rw [phase] at sound
    cases serverLoaded with
    | true =>
      rcases sound with ⟨failed, last, split, misses, available, count⟩
      refine ⟨count, fun pinging => (by cases phase.symm.trans pinging), fun _ done => ?_⟩
      cases phase.symm.trans done
      rw [split, List.length_append, List.length_singleton] at count
      rw [split]
      exact waitLoop_found misses available count
    | false =>
      rcases sound with ⟨failed, count⟩
      refine ⟨Nat.le_of_eq count, fun pinging => (by cases phase.symm.trans pinging), fun _ done => ?_⟩
      cases phase.symm.trans done
      rw [waitForReady, waitLoop_failed failed, if_neg (by omega)]

/-- However the changes of the workspace, the pings and the timeouts of several handlers interleave: each handler is
    the loop on its own pings, and the calls of `configureServer` are those of the handlers that found the server,
    one each, with the root of the change that started the handler and the folder below it. -/
theorem configureServer_spec {as : List Action}
    (run : Runs.Reached (system lib numberOfTries) (fun _ _ => True) as s) :
    s.handlers.map Handler.configuration = as.filterMap (Action.configuration lib) ∧
      (∀ h ∈ s.handlers, h.Follows numberOfTries) ∧
      (s.configured.map Prod.fst).Nodup ∧
      ∀ i c, (i, c) ∈ s.configured ↔ ∃ h, s.handlers[i]? = some h ∧ h.phase = .done true ∧ h.configuration = c := by
  have configurations := configurations_run run
  have sound : s.Sound numberOfTries :=
    run.invariant (fun _ _ _ sound _ stepped => sound.step stepped) fun i h present => by cases present
  have configured : Configured s := run.invariant (fun _ _ _ c _ stepped => c.step stepped) Configured.start
  refine ⟨configurations, ?_, configured.once, configured.ready⟩
  intro h member
  rcases List.mem_iff_getElem?.mp member with ⟨i, present⟩
  exact (sound i h present).follows

/-- The handler of the first workspace is still waiting when that of the second one finds the server. -/
def restarted : List Action :=
  [.workspaceChanged [some "file:/a"], .pinged 0 (.rejected "ECONNREFUSED"), .workspaceChanged [some "file:/b"],
    .pinged 1 (.resolved true), .timeout 0, .pinged 0 (.resolved true)]

theorem configureServer_spec_restarted :
    ∃ s : Frontend String, Runs.Reached (system ⟨some, (· ++ "/" ++ ·)⟩ 20) (fun _ _ => True) restarted s ∧
    s.configured.map Prod.fst = [1, 0] ∧
    s.handlers.map Handler.configuration =
        [⟨"file:/a", "file:/a/.ui-schemas"⟩, ⟨"file:/b", "file:/b/.ui-schemas"⟩] ∧
      (0, ⟨"file:/a", "file:/a/.ui-schemas"⟩) ∈ s.configured ∧ (1, ⟨"file:/b", "file:/b/.ui-schemas"⟩) ∈ s.configured := by
  have run : Runs.Reached (system ⟨some, (· ++ "/" ++ ·)⟩ 20) (fun _ _ => True) restarted _ :=
    .cons trivial rfl (.cons trivial rfl (.cons trivial rfl (.cons trivial rfl (.cons trivial rfl (.cons trivial rfl (.nil _))))))
  rcases configureServer_spec run with ⟨configurations, -, -, calls⟩
  exact ⟨_, run, rfl, configurations, (calls _ _).mpr ⟨_, rfl, rfl, rfl⟩, (calls _ _).mpr ⟨_, rfl, rfl, rfl⟩⟩

def OneAtATime (s : Frontend U) : Action → Prop
  | .workspaceChanged _ => ∀ h ∈ s.handlers, ∃ serverLoaded, h.phase = .done serverLoaded
  | _ => True

/-- Only the newest handler may still wait, and the older ones have called in their order. -/
structure InOrder (s : Frontend U) : Prop where
  older : ∀ (i : Nat) (h : Handler U), s.handlers[i]? = some h → i + 1 < s.handlers.length →
    ∃ serverLoaded, h.phase = .done serverLoaded
  calls : (s.configured.map Prod.fst).Pairwise (· < ·)

theorem InOrder.newest (o : InOrder s) {i : Nat} {h : Handler U} (present : s.handlers[i]? = some h)
    (unfinished : ∀ serverLoaded, h.phase ≠ .done serverLoaded) : i + 1 = s.handlers.length := by
  have inside := (List.getElem?_eq_some_iff.mp present).1
  by_contra earlier
  rcases o.older i h present (by omega) with ⟨serverLoaded, done⟩
  exact unfinished serverLoaded done

theorem InOrder.set (o : InOrder s) {i : Nat} {h h' : Handler U} (present : s.handlers[i]? = some h)
    (unfinished : ∀ serverLoaded, h.phase ≠ .done serverLoaded) {configured : List (Nat × ServerConfiguration U)}
    (calls : (configured.map Prod.fst).Pairwise (· < ·)) (console : List String) :
    InOrder ⟨s.handlers.set i h', configured, console⟩ where
  older j hj at_j before := by
    have newest := o.newest present unfinished
    rw [List.length_set] at before
    rw [getElem?_set_present present, if_neg (by omega)] at at_j
    exact o.older j hj at_j before
  calls := calls

theorem InOrder.append (o : InOrder s) (settled : ∀ h ∈ s.handlers, ∃ serverLoaded, h.phase = .done serverLoaded)
    (h : Handler U) (console : List String) : InOrder ⟨s.handlers ++ [h], s.configured, console⟩ where
  older i hi at_i before := by
    rw [List.length_append, List.length_singleton] at before
    rw [List.getElem?_append_left (by omega)] at at_i
    exact settled hi (List.mem_of_getElem? at_i)
  calls := o.calls

theorem InOrder.called (o : InOrder s) (c : Configured s) {i : Nat} {h : Handler U} (present : s.handlers[i]? = some h)
    (pinging : h.phase = .pinging) :
    ((s.configured ++ [(i, h.configuration)]).map Prod.fst).Pairwise (· < ·) := by
  rw [List.map_append, List.pairwise_append]
  refine ⟨o.calls, List.pairwise_singleton _ _, ?_⟩
  intro j member k here
  rw [List.map_singleton, List.mem_singleton] at here
  rw [here]
  rcases List.mem_map.mp member with ⟨⟨j, configuration⟩, inside, rfl⟩
  rcases (c.ready j configuration).mp inside with ⟨hj, at_j, done, -⟩
  have bound := (List.getElem?_eq_some_iff.mp at_j).1
  have newest := o.newest present (by simp [pinging])
  have other : j ≠ i := by
    intro same
    rw [same, present] at at_j
    cases at_j
    cases pinging.symm.trans done
  change j < i
  omega

theorem InOrder.step (o : InOrder s) (c : Configured s) {a : Action} (alone : OneAtATime s a)
    (stepped : Startup.step lib numberOfTries s a = some s') : InOrder s' := by
  cases a with
  | workspaceChanged workspace =>
    rw [← Option.some.inj stepped]
    rcases workspaceChanged_cases lib numberOfTries s workspace with ⟨-, same⟩ | ⟨_, -, ⟨-, same⟩ | ⟨-, same⟩⟩
    · rwa [same]
    · rw [same]
      exact o.append alone _ _
    · rw [same]
      exact o.append alone _ _
  | pinged i outcome =>
    rcases pinged_cases stepped with ⟨h, present, pinging, ⟨-, rfl⟩ | ⟨-, rfl⟩⟩
    · exact o.set present (by simp [pinging]) (o.called c present pinging) _
    · exact o.set present (by simp [pinging]) o.calls _
  | timeout i =>
    rcases timeout_cases stepped with ⟨h, present, sleeping, ⟨-, rfl⟩ | ⟨-, rfl⟩⟩
    · exact o.set present (by simp [sleeping]) o.calls _
    · exact o.set present (by simp [sleeping]) o.calls _

theorem InOrder.last (o : InOrder s) (c : Configured s) {h : Handler U} (newest : s.handlers.getLast? = some h)
    (done : h.phase = .done true) : ∃ i, s.configured.getLast? = some (i, h.configuration) := by
  rw [List.getLast?_eq_getElem?] at newest
  have member := (c.ready (s.handlers.length - 1) h.configuration).mpr ⟨h, newest, done, rfl⟩
  rcases List.eq_nil_or_concat s.configured with empty | ⟨before, ⟨k, configuration⟩, split⟩
  · rw [empty] at member
    cases member
  · have calls := o.calls
    have inside : (k, configuration) ∈ s.configured := by rw [split]; simp
    rcases (c.ready k configuration).mp inside with ⟨hk, at_k, -, -⟩
    have bound := (List.getElem?_eq_some_iff.mp at_k).1
    rw [split] at member calls
    rw [List.concat_eq_append, List.map_append, List.pairwise_append] at calls
    rcases List.mem_append.mp (List.concat_eq_append ▸ member) with earlier | here
    · have less := calls.2.2 _ (List.mem_map_of_mem earlier) k (by simp)
      change s.handlers.length - 1 < k at less
      omega
    · rw [split, List.concat_eq_append, List.getLast?_concat, ← List.mem_singleton.mp here]
      exact ⟨_, rfl⟩

/-- While changes of the workspace come one at a time, the server is configured in their order, and with the newest
    workspace last. -/
theorem configured_in_order {as : List Action} (run : Runs.Reached (system lib numberOfTries) OneAtATime as s) :
    (s.configured.map Prod.fst).Pairwise (· < ·) ∧
      ∀ h, s.handlers.getLast? = some h → h.phase = .done true →
        ∃ i, s.configured.getLast? = some (i, h.configuration) := by
  have held : InOrder s ∧ Configured s := by
    apply run.invariant
    · intro s a s' held alone stepped
      exact ⟨held.1.step held.2 alone stepped, held.2.step stepped⟩
    · exact ⟨⟨nofun, .nil⟩, Configured.start⟩
  exact ⟨held.1.calls, fun _ newest done => held.1.last held.2 newest done⟩

theorem configured_in_order_of_two :
    ∃ s : Frontend String, Runs.Reached (system ⟨some, (· ++ "/" ++ ·)⟩ 20) OneAtATime
      [.workspaceChanged [some "file:/a"], .pinged 0 (.resolved true), .workspaceChanged [some "file:/b"],
        .pinged 1 (.resolved true)] s ∧
    ∃ i, s.configured.getLast? = some (i, ⟨"file:/b", "file:/b/.ui-schemas"⟩) := by
  have settled : ∀ h ∈ [(⟨⟨"file:/a", "file:/a/.ui-schemas"⟩, 19, .done true, [.resolved true]⟩ : Handler String)],
      ∃ serverLoaded, h.phase = .done serverLoaded := List.forall_mem_singleton.mpr ⟨true, rfl⟩
  have run : Runs.Reached (system ⟨some, (· ++ "/" ++ ·)⟩ 20) OneAtATime
      [.workspaceChanged [some "file:/a"], .pinged 0 (.resolved true), .workspaceChanged [some "file:/b"],
        .pinged 1 (.resolved true)] _ :=
    .cons nofun rfl (.cons trivial rfl (.cons settled rfl (.cons trivial rfl (.nil _))))
  exact ⟨_, run, (configured_in_order run).2 _ rfl rfl⟩

end

end ModelServer.Startup
