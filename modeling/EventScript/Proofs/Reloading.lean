import EventScript.Manager
import EventScript.Proofs.Corpus

/-!
Reloads are all or nothing, and one at a time. Whatever happens to a manager, also while sources are
being loaded, the program in use is that of the last reload that succeeded, and as many have
succeeded as the generation says. A handle answers for good what its own program answers.
-/
namespace EventScript.Manager

/-- What can happen to a manager. All that comes between a reload and the end of its loading happens
while its sources are being loaded. -/
inductive Event where
  /-- Somebody asks for a reload. -/
  | reload
  /-- Loading for the reload under way comes to its end. -/
  | loaded (sources : Except SourceError (List SourceFile))
  | find (name : String)
  | findResource (id : ResourceId)
  /-- A handle is called, one of those that have been given out. -/
  | invoke (i fuel : Nat) (args : List Value) (world : World)

/-- What the one behind an event is told. -/
inductive Reply where
  | nothing
  /-- The sources are to be loaded. -/
  | begun
  | reloaded (outcome : Except ReloadError ReloadReport)
  | found (handle? : Option Handle)
  | answered (answer? : Option (Answer × World))

/-- A manager and the handles that it has given out. -/
structure Session where
  manager : Manager
  held : Array Handle := #[]

namespace Session

def hold (s : Session) (handle? : Option Handle) : Reply × Session :=
  (.found handle?, { s with held := s.held ++ handle?.toArray })

def react (s : Session) : Event → Reply × Session
  | .reload =>
    match s.manager.beginReload with
    | .ok m => (.begun, { s with manager := m })
    | .error e => (.reloaded (.error e), s)
  | .loaded sources =>
    if s.manager.busy then
      let (outcome, m) := s.manager.endReload sources
      (.reloaded outcome, { s with manager := m })
    else (.nothing, s)
  | .find name => s.hold (s.manager.handle? name)
  | .findResource id => s.hold (s.manager.resourceHandle? id)
  | .invoke i fuel args world =>
    match s.held[i]? with
    | some h =>
      let (answer?, m) := s.manager.invoke h fuel args world
      (.answered answer?, { s with manager := m })
    | none => (.nothing, s)

def after (s : Session) (events : List Event) : Session :=
  events.foldl (fun s event => (s.react event).2) s

end Session

/-- What there is to know of the events so far: whether a reload is under way, and the files of each
that has succeeded, the last first. -/
structure Ledger where
  busy : Bool := false
  corpora : List (List SourceFile) := []

/-- A reload succeeds if its sources can be loaded and compile. -/
def Ledger.note (registry : Registry) (limits : Limits) (l : Ledger) : Event → Ledger
  | .reload => { l with busy := true }
  | .loaded (.ok files) =>
    if l.busy && (Program.ofCorpus registry limits files).isOk then ⟨false, files :: l.corpora⟩
    else { l with busy := false }
  | .loaded (.error _) => { l with busy := false }
  | .find _ | .findResource _ | .invoke _ _ _ _ => l

def Ledger.ofEvents (registry : Registry) (limits : Limits) (events : List Event) : Ledger :=
  events.foldl (Ledger.note registry limits) {}

/-- The program in use is that of the last corpus, with its constants made. -/
def Installs (registry : Registry) (limits : Limits) (loaded : Loaded) :
    List (List SourceFile) → Prop
  | [] => loaded.program = .empty limits
  | files :: _ =>
    Program.ofCorpus registry limits files = .ok loaded.program ∧ loaded.initialized = true

theorem Installs.makeConstants {registry : Registry} {limits : Limits} {loaded : Loaded} :
    ∀ {corpora : List (List SourceFile)}, Installs registry limits loaded corpora →
      Installs registry limits loaded.makeConstants corpora
  | [], h => h
  | _ :: _, h => ⟨h.1, rfl⟩

namespace Session

/-- A session is where its ledger says. -/
structure Agrees (registry : Registry) (config : Config) (l : Ledger) (s : Session) : Prop where
  sameRegistry : s.manager.registry = registry
  sameConfig : s.manager.config = config
  busy : s.manager.busy = l.busy
  generation : s.manager.generation = l.corpora.length
  installed : Installs registry config.limits s.manager.installed l.corpora

/-- How requests for reloads and for handles end. -/
structure Reloads (registry : Registry) (config : Config) (l : Ledger) (s : Session) : Prop where
  begins : l.busy = false →
    s.react .reload = (.begun, { s with manager := { s.manager with busy := true } })
  refuses : l.busy = true → s.react .reload = (.reloaded (.error .inProgress), s)
  unloaded : l.busy = true → ∀ e, s.react (.loaded (.error e)) =
    (.reloaded (.error (.source e)), { s with manager := { s.manager with busy := false } })
  uncompiled : l.busy = true → ∀ files e,
    Program.ofCorpus registry config.limits files = .error e → s.react (.loaded (.ok files)) =
      (.reloaded (.error (.compile e)), { s with manager := { s.manager with busy := false } })
  succeeds : l.busy = true → ∀ files p,
    Program.ofCorpus registry config.limits files = .ok p → s.react (.loaded (.ok files)) =
      (.reloaded (.ok ⟨l.corpora.length + 1, files.length⟩), { s with manager := { s.manager with
        busy := false, generation := l.corpora.length + 1, installed := ⟨p, true⟩ } })
  finds : ∀ name, (s.react (.find name)).1 = .found
    ((s.manager.installed.program.callable? name).map fun c => ⟨l.corpora.length, c⟩)
  findsResource : ∀ id, (s.react (.findResource id)).1 = .found
    ((s.manager.installed.program.resourceCallable? id).map fun c => ⟨l.corpora.length, c⟩)

variable {registry : Registry} {config : Config} {l : Ledger} {s : Session}

theorem agrees_new (registry : Registry) (config : Config) :
    Agrees registry config {} ⟨.new registry config, #[]⟩ :=
  ⟨rfl, rfl, rfl, rfl, rfl⟩

theorem Agrees.reloads (h : s.Agrees registry config l) : s.Reloads registry config l where
  begins hbusy := by
    simp [react, beginReload, h.busy, hbusy]
  refuses hbusy := by
    simp [react, beginReload, h.busy, hbusy]
  unloaded hbusy e := by
    simp [react, h.busy, hbusy, endReload, build, Except.mapError, bind, Except.bind]
  uncompiled hbusy files e he := by
    simp [react, h.busy, hbusy, endReload, build, Except.mapError, bind, Except.bind,
      h.sameRegistry, h.sameConfig, he]
  succeeds hbusy files p hp := by
    simp [react, h.busy, hbusy, endReload, build, Except.mapError, bind, Except.bind,
      h.sameRegistry, h.sameConfig, hp, install, Loaded.makeConstants, h.generation,
      Program.size_of_ofCorpus hp]
  finds name := by
    rw [← h.generation]
    rfl
  findsResource id := by
    rw [← h.generation]
    rfl

/-- A reload in one go is a request for it that is granted, and then the end of loading. -/
theorem react_loaded_react_reload (hbusy : s.manager.busy = false)
    (sources : Except SourceError (List SourceFile)) :
    (s.react .reload).2.react (.loaded sources) =
      (.reloaded (s.manager.reload sources).1,
        { s with manager := (s.manager.reload sources).2 }) := by
  simp [react, beginReload, hbusy, reload]

/-- An event leads from where the ledger says to where it says next. -/
theorem Agrees.react (h : s.Agrees registry config l) (event : Event) :
    (s.react event).2.Agrees registry config (l.note registry config.limits event) := by
  cases event with
  | reload =>
    cases hbusy : l.busy with
    | false =>
      rw [h.reloads.begins hbusy]
      exact { h with busy := rfl }
    | true =>
      rw [h.reloads.refuses hbusy]
      exact { h with busy := h.busy.trans hbusy }
  | loaded sources =>
    cases hbusy : l.busy with
    | false =>
      have hnone : s.react (.loaded sources) = (.nothing, s) := by
        simp [Session.react, h.busy, hbusy]
      have hnote : l.note registry config.limits (.loaded sources) = { l with busy := false } := by
        cases sources <;> simp [Ledger.note, hbusy]
      rw [hnone, hnote]
      exact { h with busy := h.busy.trans hbusy }
    | true =>
      cases sources with
      | error e =>
        rw [h.reloads.unloaded hbusy]
        exact { h with busy := rfl }
      | ok files =>
        cases hp : Program.ofCorpus registry config.limits files with
        | error e =>
          rw [h.reloads.uncompiled hbusy _ _ hp]
          simp only [Ledger.note, hp, Except.isOk, Except.toBool, Bool.and_false]
          exact { h with busy := rfl }
        | ok p =>
          rw [h.reloads.succeeds hbusy _ _ hp]
          simp only [Ledger.note, hbusy, hp, Except.isOk, Except.toBool, Bool.and_self]
          exact ⟨h.sameRegistry, h.sameConfig, rfl, rfl, hp, rfl⟩
  | find name => exact { h with }
  | findResource id => exact { h with }
  | invoke i fuel args world =>
    simp only [Session.react]
    split
    · simp only [Manager.invoke]
      split
      · exact { h with installed := h.installed.makeConstants }
      · exact { h with }
    · exact h

theorem Agrees.after (h : s.Agrees registry config l) (events : List Event) :
    (s.after events).Agrees registry config
      (events.foldl (Ledger.note registry config.limits) l) := by
  induction events generalizing s l with
  | nil => exact h
  | cons event events ih => exact ih (h.react event)

/-! ### Handles -/

/-- A handle is of the program in use. -/
def Gives (s : Session) (h : Handle) : Prop :=
  h.generation = s.manager.generation ∧ h.callable.program = s.manager.installed.program

theorem gives_of_handle? {name : String} {h : Handle} (hfound : s.manager.handle? name = some h) :
    s.Gives h := by
  obtain ⟨c, hc, rfl⟩ := Option.map_eq_some_iff.1 hfound
  refine ⟨rfl, ?_⟩
  unfold Program.callable? at hc
  split at hc
  · cases hc
    rfl
  · obtain ⟨_, _, rfl⟩ := Option.map_eq_some_iff.1 hc
    rfl

theorem gives_of_resourceHandle? {id : ResourceId} {h : Handle}
    (hfound : s.manager.resourceHandle? id = some h) : s.Gives h := by
  obtain ⟨c, hc, rfl⟩ := Option.map_eq_some_iff.1 hfound
  obtain ⟨_, _, rfl⟩ := Option.map_eq_some_iff.1 hc
  exact ⟨rfl, rfl⟩

/-- Events only add to the handles that have been given out. -/
theorem exists_held_react (s : Session) (event : Event) :
    ∃ more, (s.react event).2.held = s.held ++ more ∧ ∀ h ∈ more, s.Gives h := by
  cases event with
  | find name => exact ⟨_, rfl, by simpa using fun h => gives_of_handle?⟩
  | findResource id => exact ⟨_, rfl, by simpa using fun h => gives_of_resourceHandle?⟩
  | _ =>
    refine ⟨#[], ?_, by simp⟩
    simp only [react, Array.append_empty]
    split <;> rfl

theorem exists_held_after (s : Session) (events : List Event) :
    ∃ more, (s.after events).held = s.held ++ more := by
  induction events generalizing s with
  | nil => exact ⟨#[], by simp [after]⟩
  | cons event events ih =>
    obtain ⟨first, hfirst, _⟩ := s.exists_held_react event
    obtain ⟨more, hmore⟩ := ih (s.react event).2
    exact ⟨first ++ more, by rw [← Array.append_assoc, ← hfirst, ← hmore]; rfl⟩

theorem after_append (s : Session) (before later : List Event) :
    s.after (before ++ later) = (s.after before).after later :=
  List.foldl_append

/-- What a handle is of was in use when it was given out. -/
theorem exists_origin {events : List Event} {i : Nat} {h : Handle}
    (hi : (s.after events).held[i]? = some h) : s.held[i]? = some h ∨
      ∃ before later, events = before ++ later ∧ (s.after before).Gives h := by
  induction events generalizing s with
  | nil => exact .inl hi
  | cons event events ih =>
    rcases ih hi with hi | ⟨before, later, rfl, horigin⟩
    · obtain ⟨more, hmore, hgives⟩ := s.exists_held_react event
      rw [hmore, Array.getElem?_append] at hi
      split at hi
      · exact .inl hi
      · exact .inr ⟨[], _, rfl, hgives h (Array.mem_of_getElem? hi)⟩
    · exact .inr ⟨event :: before, later, rfl, horigin⟩

theorem react_invoke {i : Nat} {h : Handle} (hi : s.held[i]? = some h) (fuel : Nat)
    (args : List Value) (world : World) : (s.react (.invoke i fuel args world)).1 =
      .answered (h.callable.invoke fuel args world) := by
  simp only [react, hi, Manager.invoke]
  split <;> rfl

/-- Handles are of programs that were in use at some time, and answer what these answer. -/
structure Serves (start : Session) (events : List Event) : Prop where
  origin : ∀ {i : Nat} {h : Handle}, (start.after events).held[i]? = some h →
    ∃ before later, events = before ++ later ∧ (start.after before).Gives h
  lasting : ∀ {before later : List Event} {i : Nat} {h : Handle}, events = before ++ later →
    (start.after before).held[i]? = some h → ∀ fuel args world,
      ((start.after events).react (.invoke i fuel args world)).1 =
        .answered (h.callable.invoke fuel args world)

theorem serves (hs : s.held = #[]) (events : List Event) : s.Serves events where
  origin hi := (exists_origin hi).resolve_left (by simp [hs])
  lasting := by
    rintro before later i h rfl hi fuel args world
    obtain ⟨more, hmore⟩ := (s.after before).exists_held_after later
    apply react_invoke
    rw [after_append, hmore]
    obtain ⟨hlt, _⟩ := Array.getElem?_eq_some_iff.1 hi
    rwa [Array.getElem?_append_left hlt]

end Session

/-- The second request is refused, and with the first reload over there is nothing to load. -/
example : Ledger.ofEvents Table.empty {}
    [.reload, .reload, .loaded (.ok []), .loaded (.ok [])] = ⟨false, [[]]⟩ := by
  cbv

end EventScript.Manager
