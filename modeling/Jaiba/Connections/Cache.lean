import Jaiba.Connections.Interleaving
import Jaiba.Lib.Dict

/-!
# The metadata caches (`list_objects`, `describe_object`)

An answer of a plugin is kept under a key built of the profile, the schema and the name, and is
returned for the key until it is as old as `metadata_ttl`. A call that publishes a profile
removes the keys of the profile afterwards, from one cache and then from the other. A call that
asks a plugin puts its answer into the cache when it comes.
-/

namespace Jaiba.Connections.MetadataCache
open Jaiba.Lib

inductive DatabaseObjectKind where
  | schema | collection | table | view | procedure | function | sequence
  deriving Repr, DecidableEq

structure DatabaseObject where
  schema : Option String
  name : String
  kind : DatabaseObjectKind
  deriving Repr, DecidableEq

inductive CacheName where
  | metadata | description
  deriving Repr, DecidableEq

inductive Request where
  | listObjects (id : String) (schema : Option String)
  | describeObject (id : String) (object : DatabaseObject)
  deriving Repr, DecidableEq

namespace Request

def id : Request → String
  | .listObjects id _ | .describeObject id _ => id

def cache : Request → CacheName
  | .listObjects _ _ => .metadata
  | .describeObject _ _ => .description

/-- `cache_key`. -/
def key : Request → String
  | .listObjects id schema => id ++ ":" ++ schema.getD "*"
  | .describeObject id object => id ++ ":" ++ object.schema.getD "" ++ ":" ++ object.name

end Request

/-- An answer of a plugin: to what request, for which version of the profile, and when. -/
structure Given (α : Type) where
  request : Request
  version : ℕ
  time : ℕ
  answer : α
  deriving Repr, DecidableEq

/-- The next access of a call of `list_objects` or `describe_object`. -/
inductive FetchStage (α : Type) where
  | lookup
  | get
  | resolve (profile : ConnectionProfile) (version : ℕ)
  | ask (profile : ConnectionProfile) (version : ℕ)
  | insert (given : Given α)
  /-- `none` is an error -/
  | returned (answer : Option α) (cached : Bool)
  deriving DecidableEq

def FetchStage.given {α : Type} : FetchStage α → Option (Given α)
  | .insert given => some given
  | _ => none

structure Fetch (α : Type) where
  request : Request
  stage : FetchStage α
  deriving DecidableEq

inductive JobStage where
  | metadata | descriptions | done
  deriving Repr, DecidableEq

/-- The cache has been rid of the keys of the profile. -/
def JobStage.cleared : JobStage → CacheName → Bool
  | .metadata, _ => false
  | .descriptions, name => name = .metadata
  | .done, _ => true

/-- The `invalidate_metadata` of a call that has published a version of a profile; the call
returns when it is done. -/
structure Job where
  id : String
  version : ℕ
  stage : JobStage
  deriving Repr, DecidableEq

/-- The manager with its caches. `versions` counts how often each profile was published, and
`answers` are all those of the plugins. -/
structure State (α : Type) where
  traffic : Traffic
  clock : ℕ
  caches : CacheName → Dict String (ℕ × Given α)
  versions : String → ℕ
  jobs : List Job
  fetches : List (Fetch α)
  answers : List (Given α)

def State.start (α : Type) (m : Manager) : State α :=
  ⟨Traffic.start m, 0, fun _ => Dict.empty, fun _ => 0, [], [], []⟩

inductive Action (α : Type) where
  | tick
  | request (q : Request)
  /-- an access of a call that changes profiles -/
  | turn (a : Turn)
  | invalidate (j : ℕ)
  /-- an access of a fetch; `found` tells whether its plugin is there, and `answer` what that
  returns in time -/
  | advance (i : ℕ) (found : Bool) (answer : Option α)

/-- The profile that a call publishes and then invalidates. -/
def publishes : Stage → Option String
  | .upsertPublish profile _ _ => some profile.id
  | .deletePublish id _ | .dropPublish id _ => some id
  | _ => none

def published (s : Traffic) : Turn → Option String
  | .advance i _ => s.calls[i]?.bind publishes
  | .call _ => none

section
variable {α : Type}

namespace State

variable (s : State α)

def withTraffic (next : Traffic) : State α := { s with traffic := next }

def setStage (i : ℕ) (f : Fetch α) (stage : FetchStage α) : State α :=
  { s with fetches := s.fetches.set i { f with stage := stage } }

/-- A profile is published: its next version, whose keys are to be removed. -/
def publish (id : String) : State α :=
  { s with
    versions := Function.update s.versions id (s.versions id + 1)
    jobs := s.jobs ++ [⟨id, s.versions id + 1, .metadata⟩] }

/-- `retain(|key, _| !key.starts_with(&prefix))` on one of the caches. -/
def clear (name : CacheName) (id : String) : State α :=
  { s with
    caches := Function.update s.caches name ((s.caches name).retain fun key _ =>
      !(id ++ ":").toList.isPrefixOf key.toList) }

def invalidate (j : ℕ) (job : Job) : Option (State α) :=
  match job.stage with
  | .metadata =>
    some { s.clear .metadata job.id with
      jobs := s.jobs.set j { job with stage := .descriptions } }
  | .descriptions =>
    some { s.clear .description job.id with jobs := s.jobs.set j { job with stage := .done } }
  | .done => none

/-- The entry of the cache, if it is not too old. -/
def lookup (ttl : ℕ) (q : Request) : Option (Given α) :=
  (Dict.get? (s.caches q.cache) q.key).bind fun e =>
    if s.clock - e.1 < ttl then some e.2 else none

def advance (ttl : ℕ) (i : ℕ) (f : Fetch α) (found : Bool) (answer : Option α) :
    Option (State α) :=
  match f.stage with
  | .lookup =>
    match s.lookup ttl f.request with
    | some given => some (s.setStage i f (.returned (some given.answer) true))
    | none => some (s.setStage i f .get)
  | .get =>
    if s.traffic.calls.any Stage.holds then none
    else
      match s.traffic.manager.get f.request.id with
      | .error _ => some (s.setStage i f (.returned none false))
      | .ok profile => some (s.setStage i f (.resolve profile (s.versions f.request.id)))
  | .resolve profile version =>
    match s.traffic.manager.resolveSecret profile.secretRef with
    | .error _ => some (s.setStage i f (.returned none false))
    | .ok _ =>
      if found then some (s.setStage i f (.ask profile version))
      else some (s.setStage i f (.returned none false))
  | .ask _ version =>
    match answer with
    | none => some (s.setStage i f (.returned none false))
    | some a =>
      some { s.setStage i f (.insert ⟨f.request, version, s.clock, a⟩) with
        answers := s.answers ++ [⟨f.request, version, s.clock, a⟩] }
  | .insert given =>
    some { s.setStage i f (.returned (some given.answer) false) with
      caches := Function.update s.caches f.request.cache
        ((s.caches f.request.cache).insert f.request.key (s.clock, given)) }
  | .returned _ _ => none

end State

def step (ttl : ℕ) (s : State α) : Action α → Option (State α)
  | .tick => some { s with clock := s.clock + 1 }
  | .request q => some { s with fetches := s.fetches ++ [⟨q, .lookup⟩] }
  | .turn a =>
    (traffic.step s.traffic a).map fun next =>
      ((published s.traffic a).elim s s.publish).withTraffic next
  | .invalidate j => s.jobs[j]?.bind fun job => s.invalidate j job
  | .advance i found answer => s.fetches[i]?.bind fun f => s.advance ttl i f found answer

/-- The caches under any number of concurrent calls. -/
def caches (ttl : ℕ) : Machine (State α) (Action α) := ⟨step ttl⟩

/-! ### Answers that are returned -/

/-- No invalidation of a later version has passed over the answer's cache. -/
def State.Valid (s : State α) (given : Given α) : Prop :=
  ∀ job ∈ s.jobs, job.id = given.request.id → given.version < job.version →
    job.stage.cleared given.request.cache = false

/-- The condition on a step: no two different requests have one key, and an answer is put into its
cache when it is given and before the invalidation of any later version of the profile. -/
def Fits (s : State α) : Action α → Prop
  | .request q => ∀ f ∈ s.fetches, f.request.cache = q.cache → f.request.key = q.key →
      f.request = q
  | .advance i _ _ => ∀ f given, s.fetches[i]? = some f → f.stage = .insert given →
      s.clock = given.time ∧ s.Valid given
  | _ => True

structure Inv (s : State α) : Prop where
  keys : ∀ f ∈ s.fetches, ∀ g ∈ s.fetches, f.request.cache = g.request.cache →
    f.request.key = g.request.key → f.request = g.request
  cached : ∀ name key created given, Dict.get? (s.caches name) key = some (created, given) →
    given.request.cache = name ∧ given.request.key = key ∧ created = given.time ∧
      given ∈ s.answers ∧ (∃ f ∈ s.fetches, f.request = given.request) ∧ s.Valid given
  inserting : ∀ f ∈ s.fetches, ∀ given, f.stage = .insert given →
    given ∈ s.answers ∧ given.request = f.request

variable {ttl : ℕ} {s t : State α} {i : ℕ} {f : Fetch α}

theorem key_starts (q : Request) : (q.id ++ ":").toList.isPrefixOf q.key.toList = true := by
  rw [List.isPrefixOf_iff_prefix]
  cases q with
  | listObjects id schema =>
    refine ⟨(schema.getD "*").toList, ?_⟩
    simp only [Request.id, Request.key, String.toList_append]
  | describeObject id object =>
    refine ⟨(object.schema.getD "" ++ ":" ++ object.name).toList, ?_⟩
    simp only [Request.id, Request.key, String.toList_append, List.append_assoc]

/-- A fetch goes on: its request stays, and what it is to insert is an answer to it. -/
theorem Inv.setStage (h : Inv s) (hf : s.fetches[i]? = some f) (stage : FetchStage α)
    (hstage : ∀ given, stage = .insert given → given ∈ s.answers ∧ given.request = f.request) :
    Inv (s.setStage i f stage) := by
  have hmem : ∀ g ∈ s.fetches.set i { f with stage := stage },
      ∃ g' ∈ s.fetches, g'.request = g.request := by
    intro g hg
    rcases List.mem_or_eq_of_mem_set hg with hg | rfl
    · exact ⟨g, hg, rfl⟩
    · exact ⟨f, List.mem_of_getElem? hf, rfl⟩
  constructor
  · intro g hg g' hg' hcache hkey
    obtain ⟨a, ha, hag⟩ := hmem g hg
    obtain ⟨b, hb, hbg⟩ := hmem g' hg'
    rw [← hag, ← hbg] at hcache hkey ⊢
    exact h.keys a ha b hb hcache hkey
  · intro name key created given hget
    obtain ⟨hname, hkey, hcreated, hgiven, ⟨g, hg, hgr⟩, hvalid⟩ := h.cached name key created given hget
    refine ⟨hname, hkey, hcreated, hgiven, ?_, hvalid⟩
    obtain ⟨j, hj⟩ := List.mem_iff_getElem?.mp hg
    by_cases hji : i = j
    · subst hji
      rw [hf] at hj
      cases hj
      exact ⟨_, List.mem_of_getElem? (List.getElem?_set_self (List.getElem?_eq_some_iff.mp hf).1),
        hgr⟩
    · exact ⟨g, List.mem_of_getElem? ((List.getElem?_set_ne hji).trans hj), hgr⟩
  · intro g hg given hgiven
    rcases List.mem_or_eq_of_mem_set hg with hg | rfl
    · exact h.inserting g hg given hgiven
    · exact hstage given hgiven

theorem Inv.publish (h : Inv s) (id : String) : Inv (s.publish id) := by
  refine ⟨h.keys, fun name key created given hget => ?_, h.inserting⟩
  obtain ⟨hname, hkey, hcreated, hgiven, hfetch, hvalid⟩ := h.cached name key created given hget
  refine ⟨hname, hkey, hcreated, hgiven, hfetch, fun job hjob hid hlt => ?_⟩
  rcases List.mem_append.mp hjob with hjob | hjob
  · exact hvalid job hjob hid hlt
  · rw [List.mem_singleton.mp hjob]
    rfl

theorem get?_clear {name name' : CacheName} {id key : String} {e : ℕ × Given α}
    (hget : Dict.get? ((s.clear name id).caches name') key = some e) :
    Dict.get? (s.caches name') key = some e ∧
      (name' = name → (id ++ ":").toList.isPrefixOf key.toList = false) := by
  change Dict.get? (Function.update s.caches name _ name') key = some e at hget
  by_cases hname : name' = name
  · subst hname
    rw [Function.update_self, Dict.get?_retain] at hget
    obtain ⟨hget, hkeep⟩ := Option.filter_eq_some_iff.mp hget
    exact ⟨hget, fun _ => by simpa using hkeep⟩
  · rw [Function.update_of_ne hname] at hget
    exact ⟨hget, fun h => absurd h hname⟩

/-- Once a job has cleared one more cache, that cache has no key of its profile. -/
theorem Inv.cleared (h : Inv s) {j : ℕ} {job : Job} (hj : s.jobs[j]? = some job)
    (name : CacheName) (stage : JobStage)
    (hstage : ∀ name', stage.cleared name' = true →
      job.stage.cleared name' = true ∨ name' = name) :
    Inv { s.clear name job.id with jobs := s.jobs.set j { job with stage := stage } } := by
  refine ⟨h.keys, fun name' key created given hget => ?_, h.inserting⟩
  obtain ⟨hget, hkeep⟩ := get?_clear hget
  obtain ⟨hname, hkey, hcreated, hgiven, hfetch, hvalid⟩ := h.cached name' key created given hget
  refine ⟨hname, hkey, hcreated, hgiven, hfetch, fun job' hjob' hid hlt => ?_⟩
  rcases List.mem_or_eq_of_mem_set hjob' with hjob' | rfl
  · exact hvalid job' hjob' hid hlt
  · by_contra hcleared
    rw [Bool.not_eq_false] at hcleared
    rcases hstage _ hcleared with hold | hnew
    · have hfalse := hvalid job (List.mem_of_getElem? hj) hid hlt
      rw [hold] at hfalse
      cases hfalse
    · have hprefix := hkeep (hname ▸ hnew)
      have hstarts := key_starts given.request
      dsimp only at hid
      rw [hkey, ← hid, hprefix] at hstarts
      cases hstarts

theorem Inv.invalidate (h : Inv s) {j : ℕ} {job : Job} (hj : s.jobs[j]? = some job)
    (hs : s.invalidate j job = some t) : Inv t := by
  unfold State.invalidate at hs
  split at hs
  · cases hs
    refine h.cleared hj .metadata .descriptions fun name' hname => .inr ?_
    simpa [JobStage.cleared] using hname
  next hstage =>
    cases hs
    refine h.cleared hj .description .done fun name' _ => ?_
    cases name' with
    | metadata => exact .inl (by rw [hstage]; rfl)
    | description => exact .inr rfl
  · cases hs

theorem Inv.insert (h : Inv s) (hf : s.fetches[i]? = some f) {given : Given α}
    (hstage : f.stage = .insert given) (htime : s.clock = given.time) (hvalid : s.Valid given) :
    Inv { s.setStage i f (.returned (some given.answer) false) with
      caches := Function.update s.caches f.request.cache
        ((s.caches f.request.cache).insert f.request.key (s.clock, given)) } := by
  have hnext := h.setStage hf (.returned (some given.answer) false) fun g hg => by cases hg
  obtain ⟨hgiven, hrequest⟩ := h.inserting f (List.mem_of_getElem? hf) given hstage
  refine ⟨hnext.keys, fun name key created g hget => ?_, hnext.inserting⟩
  dsimp only at hget
  by_cases hname : name = f.request.cache
  · subst hname
    rw [Function.update_self, Dict.get?_insert] at hget
    split_ifs at hget with hkey
    · cases hget
      refine ⟨by rw [hrequest], by rw [hrequest, hkey], htime, hgiven, ?_, hvalid⟩
      exact ⟨_, List.mem_of_getElem? (List.getElem?_set_self (List.getElem?_eq_some_iff.mp hf).1),
        hrequest.symm⟩
    · exact hnext.cached _ key created g hget
  · rw [Function.update_of_ne hname] at hget
    exact hnext.cached name key created g hget

theorem Inv.answered (h : Inv s) (given : Given α) :
    Inv { s with answers := s.answers ++ [given] } := by
  refine ⟨h.keys, fun name key created g hget => ?_, fun f hf g hstage => ?_⟩
  · obtain ⟨hname, hkey, hcreated, hgiven, hrest⟩ := h.cached name key created g hget
    exact ⟨hname, hkey, hcreated, List.mem_append_left _ hgiven, hrest⟩
  · obtain ⟨hgiven, hrequest⟩ := h.inserting f hf g hstage
    exact ⟨List.mem_append_left _ hgiven, hrequest⟩

theorem Inv.advance (h : Inv s) {found : Bool} {answer : Option α}
    (hok : Fits s (.advance i found answer)) (hf : s.fetches[i]? = some f)
    (hs : s.advance ttl i f found answer = some t) : Inv t := by
  have hgo : ∀ stage, (∀ given, stage ≠ .insert given) → Inv (s.setStage i f stage) :=
    fun stage hne => h.setStage hf stage fun given hgiven => absurd hgiven (hne given)
  unfold State.advance at hs
  split at hs
  next hstage =>
    split at hs
    · cases hs
      exact hgo _ (by simp)
    · cases hs
      exact hgo _ (by simp)
  next hstage =>
    split_ifs at hs
    split at hs
    · cases hs
      exact hgo _ (by simp)
    · cases hs
      exact hgo _ (by simp)
  next profile version hstage =>
    split at hs
    · cases hs
      exact hgo _ (by simp)
    · split_ifs at hs
      · cases hs
        exact hgo _ (by simp)
      · cases hs
        exact hgo _ (by simp)
  next profile version hstage =>
    split at hs
    · cases hs
      exact hgo _ (by simp)
    next a =>
      cases hs
      refine (h.answered ⟨f.request, version, s.clock, a⟩).setStage hf _ fun given hgiven => ?_
      cases hgiven
      exact ⟨List.mem_append_right _ (List.mem_singleton_self _), rfl⟩
  next given hstage =>
    cases hs
    obtain ⟨htime, hvalid⟩ := hok f given hf hstage
    exact h.insert hf hstage htime hvalid
  · cases hs

theorem step_inv (h : Inv s) {a : Action α} (hok : Fits s a) (hs : step ttl s a = some t) :
    Inv t := by
  cases a with
  | tick =>
    cases hs
    exact ⟨h.keys, h.cached, h.inserting⟩
  | request q =>
    cases hs
    have hsame : ∀ f ∈ s.fetches ++ [⟨q, .lookup⟩], f ∈ s.fetches ∨ f = ⟨q, .lookup⟩ := by
      intro f hf
      rwa [List.mem_append, List.mem_singleton] at hf
    refine ⟨fun f hf g hg hcache hkey => ?_, fun name key created given hget => ?_,
      fun f hf given hgiven => ?_⟩
    · rcases hsame f hf with hf | rfl
      · rcases hsame g hg with hg | rfl
        · exact h.keys f hf g hg hcache hkey
        · exact hok f hf hcache hkey
      · rcases hsame g hg with hg | rfl
        · exact (hok g hg hcache.symm hkey.symm).symm
        · rfl
    · obtain ⟨hname, hkey, hcreated, hgiven, ⟨f, hf, hrequest⟩, hvalid⟩ :=
        h.cached name key created given hget
      exact ⟨hname, hkey, hcreated, hgiven, ⟨f, List.mem_append_left _ hf, hrequest⟩, hvalid⟩
    · rcases hsame f hf with hf | rfl
      · exact h.inserting f hf given hgiven
      · cases hgiven
  | turn a =>
    obtain ⟨next, -, rfl⟩ := Option.map_eq_some_iff.mp hs
    cases published s.traffic a with
    | none => exact ⟨h.keys, h.cached, h.inserting⟩
    | some id =>
      have hnext := h.publish id
      exact ⟨hnext.keys, hnext.cached, hnext.inserting⟩
  | invalidate j =>
    obtain ⟨job, hj, hs⟩ := Option.bind_eq_some_iff.mp hs
    exact h.invalidate hj hs
  | advance i found answer =>
    obtain ⟨f, hf, hs⟩ := Option.bind_eq_some_iff.mp hs
    exact h.advance hok hf hs

theorem start_inv (m : Manager) : Inv (State.start α m) where
  keys := fun f hf => (by cases hf)
  cached := fun name key created given hget => (by cases hget)
  inserting := fun f hf => (by cases hf)

theorem reach_inv {m : Manager} (h : (caches ttl).Reach Fits (State.start α m) s) : Inv s :=
  h.invariant (start_inv m) fun _ _ _ hu hok hs => step_inv hu hok hs

/-- The answer is one that the plugin gave to this request, not longer ago than the caches keep
it, and to no version of the profile before one whose publication has returned. -/
def Genuine (ttl : ℕ) (s : State α) (q : Request) (answer : α) (cached : Bool) : Prop :=
  ∃ given ∈ s.answers, given.request = q ∧ given.answer = answer ∧
    (cached = true → s.clock < given.time + ttl) ∧
    ∀ job ∈ s.jobs, job.id = q.id → job.stage = .done → job.version ≤ given.version

theorem State.Valid.le {given : Given α} (h : s.Valid given) {job : Job} (hjob : job ∈ s.jobs)
    (hid : job.id = given.request.id) (hdone : job.stage = .done) : job.version ≤ given.version := by
  by_contra hlt
  have hfalse := h job hjob hid (Nat.not_le.mp hlt)
  rw [hdone] at hfalse
  cases hfalse

theorem Inv.lookup (h : Inv s) (hf : f ∈ s.fetches) {given : Given α}
    (hget : s.lookup ttl f.request = some given) :
    Genuine ttl s f.request given.answer true := by
  obtain ⟨⟨created, g⟩, hentry, hget⟩ := Option.bind_eq_some_iff.mp hget
  dsimp only at hget
  split_ifs at hget with hage
  cases hget
  obtain ⟨hname, hkey, hcreated, hgiven, ⟨f', hf', hrequest⟩, hvalid⟩ :=
    h.cached _ _ created given hentry
  have hsame : given.request = f.request := by
    rw [← hrequest] at hname hkey ⊢
    exact h.keys f' hf' f hf hname hkey
  refine ⟨given, hgiven, hsame, rfl, fun _ => by omega, fun job hjob hid hdone => ?_⟩
  exact hvalid.le hjob (hsame ▸ hid) hdone

end

/-! ### One profile -/

/-- A fetch from its lookup to the insertion of the answer. -/
def fetchSteps (i : ℕ) (answer : ℕ) : List (Action ℕ) :=
  List.replicate 5 (.advance i true (some answer))

/-- The objects of all schemas are listed, then those of the schema named `*`. -/
def starSchema : List (Action ℕ) :=
  [.request (.listObjects "p" none)] ++ fetchSteps 0 1 ++ [.request (.listObjects "p" (some "*"))]

/-- The plugin answers, the profile is updated and its keys are removed, the answer goes into the
cache. -/
def lateInsert : List (Action ℕ) :=
  [.request (.listObjects "p" (some "ops"))] ++ (fetchSteps 0 1).take 4 ++
    [.turn (.call (.update (sampleProfile "p" "Oracle 19")))] ++
    List.replicate 4 (.turn (.advance 0 (sampleCall false))) ++
    [.invalidate 0, .invalidate 0, .advance 0 true none, .request (.listObjects "p" (some "ops"))]

/-- A state in which no answer is genuine. -/
def outdated (s : State ℕ) (q : Request) : Bool :=
  s.answers.all fun given => decide (given.request = q) → s.jobs.any fun job =>
    job.id = q.id && job.stage = .done && given.version < job.version

theorem not_genuine {ttl : ℕ} {s : State ℕ} {q : Request} (h : outdated s q = true) (answer : ℕ)
    (cached : Bool) : ¬ Genuine ttl s q answer cached := by
  rintro ⟨given, hgiven, hrequest, -, -, hjobs⟩
  have hlater := of_decide_eq_true (List.all_eq_true.mp h given hgiven) (decide_eq_true hrequest)
  obtain ⟨job, hjob, hfacts⟩ := List.any_eq_true.mp hlater
  rw [Bool.and_eq_true, Bool.and_eq_true, decide_eq_true_eq, decide_eq_true_eq,
    decide_eq_true_eq] at hfacts
  exact Nat.not_le.mpr hfacts.2 (hjobs job hjob hfacts.1.1 hfacts.1.2)

/-- No key is shared and no profile is published. -/
def fitsGuard (s : State ℕ) : Action ℕ → Bool
  | .request q => s.fetches.all fun f => f.request.key ≠ q.key || f.request = q
  | .advance i _ _ =>
    s.jobs.isEmpty && (s.fetches[i]?.map Fetch.stage).all fun stage =>
      stage.given.all fun given => s.clock = given.time
  | _ => true

theorem fits_of_guard (s : State ℕ) (a : Action ℕ) (h : fitsGuard s a = true) : Fits s a := by
  cases a with
  | request q =>
    intro f hf _ hkey
    have hf' := List.all_eq_true.mp h f hf
    rw [Bool.or_eq_true, decide_eq_true_eq, decide_eq_true_eq] at hf'
    exact hf'.resolve_left fun hne => hne hkey
  | advance i found answer =>
    intro f given hf hstage
    obtain ⟨hjobs, hall⟩ := Bool.and_eq_true_iff.mp h
    rw [hf, Option.map_some, Option.all_some, hstage] at hall
    refine ⟨of_decide_eq_true hall, fun job hjob => ?_⟩
    rw [List.isEmpty_iff.mp hjobs] at hjob
    cases hjob
  | tick => trivial
  | turn a => trivial
  | invalidate j => trivial

/-- A list that is asked for twice. -/
def listTwice : List (Action ℕ) :=
  [.request (.listObjects "p" none)] ++ fetchSteps 0 1 ++ [.tick, .request (.listObjects "p" none)]

end Jaiba.Connections.MetadataCache
