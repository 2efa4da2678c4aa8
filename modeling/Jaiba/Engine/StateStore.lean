import Jaiba.Lib.Dict
import Jaiba.Lib.Machine

/-!
# Processor state (`engine/state.rs`)

Handles of one path share a map behind a lock, found through a registry of weak
references. `set` replaces the whole file through a temporary one and then
publishes the new map, under the lock. Paths are those `load` resolves; a
temporary file has a name of its own, so that no other call sees it.
-/

namespace Jaiba.Engine.StateStore
open Jaiba.Lib

/-- The map of a processor's state. -/
abbrev Values := OrderedDict String String

/-- `serde_json` on a map of strings. -/
structure Codec where
  Bytes : Type
  toVecPretty : Values → Bytes
  fromSlice : Bytes → Option Values
  roundTrip : ∀ values, fromSlice (toVecPretty values) = some values

/-- What `Arc<Mutex<HashMap>>` points to; `path` is a mark of the model. -/
structure Cell where
  path : String
  values : Values
  /-- the call that has the lock -/
  holder : Option ℕ

/-- A `StateStore`, `live` until it is dropped. -/
structure Handle where
  path : String
  cell : ℕ
  live : Bool
  deriving Repr, DecidableEq

/-- Where a call of `set` stands. -/
inductive Stage where
  | waiting
  /-- it has the lock and the next map: `open`, `write_all`, `sync_all`, `rename` -/
  | opening (next : Values)
  | writing (next : Values)
  | syncing (next : Values)
  | renaming (next : Values)
  /-- the file is replaced, the map is not -/
  | publishing (next : Values)
  | returned (ok : Bool)

namespace Stage

def isReturned : Stage → Bool
  | .returned _ => true
  | _ => false

/-- The map a call with the lock is about to store. -/
def next? : Stage → Option Values
  | .opening next | .writing next | .syncing next | .renaming next | .publishing next => some next
  | _ => none

def publishes : Stage → Option Values
  | .publishing next => some next
  | _ => none

end Stage

/-- A call of `set` on the handle `store`. -/
structure SetCall where
  caller : ℕ
  store : ℕ
  path : String
  cell : ℕ
  key : String
  value : String
  stage : Stage

/-- A call that has returned `Ok`. -/
structure Saved where
  call : ℕ
  caller : ℕ
  path : String
  key : String
  value : String
  deriving Repr, DecidableEq

structure State (codec : Codec) where
  files : String → Option codec.Bytes
  registry : Dict String ℕ
  cells : List Cell
  handles : List Handle
  calls : List SetCall
  /-- the calls that returned `Ok`, in the order in which they published -/
  saved : List Saved

inductive Action where
  | load (path : String)
  | clone (h : ℕ)
  | drop (h : ℕ)
  /-- a caller begins a `set`; its calls before have returned -/
  | set (caller h : ℕ) (key value : String)
  /-- the next operation of a call, which may fail where it works on a file -/
  | advance (i : ℕ) (ok : Bool)
  deriving Repr, DecidableEq

variable {codec : Codec}

/-- The map in a file; without a file it is empty. -/
def read (codec : Codec) (files : String → Option codec.Bytes) (path : String) : Option Values :=
  match files path with
  | none => some .empty
  | some bytes => codec.fromSlice bytes

namespace State

variable (s : State codec)

/-- `strong_count() > 0`. -/
def strong (k : ℕ) : Bool := s.handles.any fun h => h.live && h.cell = k

def retained : Dict String ℕ := Dict.retain s.registry fun _ k => s.strong k

/-- `load`, under the lock of the registry; it fails on a file that is not a map. -/
def load (path : String) : State codec :=
  match Dict.get? s.retained path with
  | some k => { s with registry := s.retained, handles := s.handles ++ [⟨path, k, true⟩] }
  | none =>
    match read codec s.files path with
    | none => { s with registry := s.retained }
    | some values =>
      { s with
        registry := Dict.insert s.retained path s.cells.length
        cells := s.cells ++ [⟨path, values, none⟩]
        handles := s.handles ++ [⟨path, s.cells.length, true⟩] }

def setStage (i : ℕ) (c : SetCall) (stage : Stage) : State codec :=
  { s with calls := s.calls.set i { c with stage := stage } }

/-- The call lets go of the lock and returns an error; the temporary file is removed. -/
def fail (i : ℕ) (c : SetCall) (cell : Cell) : State codec :=
  { s.setStage i c (.returned false) with cells := s.cells.set c.cell { cell with holder := none } }

def advance (i : ℕ) (c : SetCall) (cell : Cell) (ok : Bool) : Option (State codec) :=
  match c.stage with
  | .waiting =>
    if cell.holder = none then
      some { s.setStage i c (.opening (cell.values.insert c.key c.value)) with
        cells := s.cells.set c.cell { cell with holder := some i } }
    else none
  | .opening next => some (if ok then s.setStage i c (.writing next) else s.fail i c cell)
  | .writing next => some (if ok then s.setStage i c (.syncing next) else s.fail i c cell)
  | .syncing next => some (if ok then s.setStage i c (.renaming next) else s.fail i c cell)
  | .renaming next =>
    some (if ok then
      { s.setStage i c (.publishing next) with
        files := Function.update s.files c.path (some (codec.toVecPretty next)) }
      else s.fail i c cell)
  | .publishing next =>
    some { s.setStage i c (.returned true) with
      cells := s.cells.set c.cell { cell with values := next, holder := none }
      saved := s.saved ++ [⟨i, c.caller, c.path, c.key, c.value⟩] }
  | .returned _ => none

/-- The maps the successful calls leave, one after the other, from the files of the start. -/
def committed (base : String → Option codec.Bytes) (path : String) : Option Values :=
  (read codec base path).map fun values =>
    s.saved.foldl (fun values e => if e.path = path then values.insert e.key e.value else values) values

end State

def step (s : State codec) : Action → Option (State codec)
  | .load path => some (s.load path)
  | .clone h =>
    match s.handles[h]? with
    | some handle => if handle.live then some { s with handles := s.handles ++ [handle] } else none
    | none => none
  | .drop h =>
    match s.handles[h]? with
    | some handle =>
      if handle.live && s.calls.all (fun c => c.store ≠ h || c.stage.isReturned) then
        some { s with handles := s.handles.set h { handle with live := false } }
      else none
    | none => none
  | .set caller h key value =>
    match s.handles[h]? with
    | some handle =>
      if handle.live && s.calls.all (fun c => c.caller ≠ caller || c.stage.isReturned) then
        some { s with
          calls := s.calls ++ [⟨caller, h, handle.path, handle.cell, key, value, .waiting⟩] }
      else none
    | none => none
  | .advance i ok =>
    match s.calls[i]? with
    | some c =>
      match s.cells[c.cell]? with
      | some cell => s.advance i c cell ok
      | none => none
    | none => none

/-- Any number of handles and callers in one process, any operation on a file failing. -/
def machine (codec : Codec) : Machine (State codec) Action := ⟨step⟩

/-- No handle is open yet. -/
def State.start (base : String → Option codec.Bytes) : State codec :=
  ⟨base, Dict.empty, [], [], [], []⟩

/-- What the handles, the files and the calls say of one another. -/
structure Agreement (base : String → Option codec.Bytes) (s : State codec) : Prop where
  /-- the map of a handle is what the successful calls on its path make of the file at the start -/
  memory : ∀ h ∈ s.handles, h.live = true → ∃ cell, s.cells[h.cell]? = some cell ∧
    s.committed base h.path = some cell.values
  /-- while nobody has the lock of the map, the file decodes to it -/
  file : ∀ h ∈ s.handles, h.live = true → ∀ cell, s.cells[h.cell]? = some cell →
    cell.holder = none → read codec s.files h.path = some cell.values
  /-- otherwise it decodes to it, or to the map that the call with the lock is to publish next -/
  midway : ∀ h ∈ s.handles, h.live = true → ∀ cell, s.cells[h.cell]? = some cell →
    read codec s.files h.path = some cell.values ∨
      ∃ i c next, cell.holder = some i ∧ s.calls[i]? = some c ∧ c.stage = .publishing next ∧
        read codec s.files h.path = some next ∧ next = cell.values.insert c.key c.value
  /-- the order is one of the calls that returned `Ok`, each of them once -/
  saved : ∀ i, i ∈ s.saved.map Saved.call ↔
    ∃ c : SetCall, s.calls[i]? = some c ∧ c.stage = .returned true
  once : (s.saved.map Saved.call).Nodup
  /-- with what they were called with -/
  exact : ∀ e ∈ s.saved, ∃ c, s.calls[e.call]? = some c ∧
    e = ⟨e.call, c.caller, c.path, c.key, c.value⟩
  /-- every caller's calls in its own order -/
  ordered : s.saved.Pairwise fun a b => a.caller = b.caller → a.call < b.call

/-! ### The invariant -/

/-- The path is not between the replacement of its file and of its map. -/
def State.Settled (s : State codec) (path : String) : Prop :=
  ∀ (i : ℕ) (c : SetCall) (next : Values), s.calls[i]? = some c → c.path = path →
    c.stage ≠ .publishing next

structure Inv (base : String → Option codec.Bytes) (s : State codec) : Prop where
  linked : ∀ h ∈ s.handles, h.live = true → Dict.get? s.registry h.path = some h.cell
  placed : ∀ path k, Dict.get? s.registry path = some k →
    ∃ cell : Cell, s.cells[k]? = some cell ∧ cell.path = path
  owned : ∀ (i : ℕ) (c : SetCall), s.calls[i]? = some c → c.stage.isReturned = false →
    s.handles[c.store]? = some ⟨c.path, c.cell, true⟩
  held : ∀ (i : ℕ) (c : SetCall) (next : Values), s.calls[i]? = some c → c.stage.next? = some next →
    ∃ cell : Cell, s.cells[c.cell]? = some cell ∧ cell.holder = some i ∧
      next = cell.values.insert c.key c.value
  memory : ∀ h ∈ s.handles, h.live = true → ∀ cell : Cell, s.cells[h.cell]? = some cell →
    s.committed base h.path = some cell.values
  file : ∀ path, s.Settled path → read codec s.files path = s.committed base path
  midway : ∀ (i : ℕ) (c : SetCall) (next : Values), s.calls[i]? = some c → c.stage = .publishing next →
    read codec s.files c.path = some next
  saved : ∀ i, i ∈ s.saved.map Saved.call ↔
    ∃ c : SetCall, s.calls[i]? = some c ∧ c.stage = .returned true
  once : (s.saved.map Saved.call).Nodup
  exact : ∀ e ∈ s.saved, ∃ c : SetCall, s.calls[e.call]? = some c ∧
    e = ⟨e.call, c.caller, c.path, c.key, c.value⟩
  ordered : s.saved.Pairwise fun a b => a.caller = b.caller → a.call < b.call
  turns : ∀ (i j : ℕ) (c d : SetCall), s.calls[i]? = some c → s.calls[j]? = some d →
    c.caller = d.caller → i < j →
    c.stage.isReturned = true

variable {base : String → Option codec.Bytes} {s t : State codec} {i j k : ℕ} {c : SetCall}
  {cell : Cell} {stage : Stage}

theorem inv_start (base : String → Option codec.Bytes) : Inv base (State.start base) where
  linked := fun h hh => absurd hh List.not_mem_nil
  placed := fun path k hk => by cases hk
  owned := fun i c hc => by cases hc
  held := fun i c next hc => by cases hc
  memory := fun h hh => absurd hh List.not_mem_nil
  file := fun path _ => by
    rw [State.committed, State.start]
    cases read codec base path with
    | none => rfl
    | some values => rfl
  midway := fun i c next hc => by cases hc
  saved := fun i => by simp [State.start]
  once := List.nodup_nil
  exact := fun e he => absurd he List.not_mem_nil
  ordered := List.Pairwise.nil
  turns := fun i j c d hc => by cases hc

/-- A live handle of the path of another one shares its cell. -/
theorem Inv.same_cell (h : Inv base s) {a b : Handle} (ha : a ∈ s.handles) (hb : b ∈ s.handles)
    (hla : a.live = true) (hlb : b.live = true) (hpath : a.path = b.path) : a.cell = b.cell := by
  have hcell := h.linked a ha hla
  rw [hpath, h.linked b hb hlb] at hcell
  exact (Option.some.inj hcell).symm

/-- Handles of one cell are of one path. -/
theorem Inv.same_path (h : Inv base s) {a b : Handle} (ha : a ∈ s.handles) (hb : b ∈ s.handles)
    (hla : a.live = true) (hlb : b.live = true) (hcell : a.cell = b.cell) : a.path = b.path := by
  obtain ⟨x, hx, hpx⟩ := h.placed _ _ (h.linked a ha hla)
  obtain ⟨y, hy, hpy⟩ := h.placed _ _ (h.linked b hb hlb)
  rw [hcell, hy] at hx
  cases hx
  exact hpx.symm.trans hpy

theorem isReturned_of_next {next : Values} (h : stage.next? = some next) :
    stage.isReturned = false := by
  cases stage with
  | returned ok => cases h
  | _ => rfl

theorem Inv.owner (h : Inv base s) (hc : s.calls[i]? = some c) (hopen : c.stage.isReturned = false) :
    ∃ a ∈ s.handles, a.live = true ∧ a.path = c.path ∧ a.cell = c.cell :=
  ⟨_, List.mem_of_getElem? (h.owned i c hc hopen), rfl, rfl, rfl⟩

/-- The lock is free, or the call has it: no other call works on the map. -/
theorem Inv.sole (h : Inv base s) (hcell : s.cells[c.cell]? = some cell)
    (hlock : cell.holder = none ∨ cell.holder = some i) {d : SetCall} {next : Values}
    (hd : s.calls[j]? = some d) (hnext : d.stage.next? = some next) (hj : j ≠ i) :
    d.cell ≠ c.cell := by
  intro hsame
  obtain ⟨x, hx, hholder, -⟩ := h.held j d next hd hnext
  rw [hsame, hcell] at hx
  cases hx
  rw [hholder] at hlock
  rcases hlock with hnone | hsome
  · cases hnone
  · exact hj (Option.some.inj hsome)

theorem getElem?_setStage {d : SetCall} (hd : (s.setStage i c stage).calls[j]? = some d) :
    (i = j ∧ d = { c with stage := stage }) ∨ i ≠ j ∧ s.calls[j]? = some d := by
  rw [State.setStage, List.getElem?_set] at hd
  split_ifs at hd with hj hlt
  · exact .inl ⟨hj, (Option.some.inj hd).symm⟩
  · exact .inr ⟨hj, hd⟩

/-! ### The steps of a call -/

/-- A cell whose lock changed hands. -/
theorem getElem?_relock {n : ℕ} {holder : Option ℕ} {x : Cell} (hcell : s.cells[n]? = some cell)
    (hx : (s.cells.set n { cell with holder := holder })[k]? = some x) :
    ∃ y : Cell, s.cells[k]? = some y ∧ x.path = y.path ∧ x.values = y.values := by
  rw [List.getElem?_set] at hx
  split_ifs at hx with hn hlt
  · cases Option.some.inj hx
    exact ⟨cell, hn ▸ hcell, rfl, rfl⟩
  · exact ⟨x, hx, rfl, rfl⟩

theorem exists_relock {n : ℕ} {x : Cell} (hn : s.cells[n]? = some cell) (hpath : x.path = cell.path)
    {y : Cell} (hy : s.cells[k]? = some y) :
    ∃ z : Cell, (s.cells.set n x)[k]? = some z ∧ z.path = y.path := by
  rw [List.getElem?_set]
  by_cases hk : n = k
  · subst hk
    rw [hn] at hy
    cases hy
    rw [if_pos rfl, if_pos (List.getElem?_eq_some_iff.mp hn).1]
    exact ⟨x, rfl, hpath⟩
  · rw [if_neg hk]
    exact ⟨y, hy, rfl⟩

/-- What the calls say of their handles and of one another stays, whatever the
stage a call comes to. -/
theorem Inv.owned_setStage (h : Inv base s) (hc : s.calls[i]? = some c)
    (hopen : c.stage.isReturned = false) (stage : Stage) {d : SetCall}
    (hd : (s.setStage i c stage).calls[j]? = some d) (hd' : d.stage.isReturned = false) :
    s.handles[d.store]? = some ⟨d.path, d.cell, true⟩ := by
  rcases getElem?_setStage hd with ⟨-, rfl⟩ | ⟨-, hd⟩
  · exact h.owned i c hc hopen
  · exact h.owned j d hd hd'

theorem Inv.turns_setStage (h : Inv base s) (hc : s.calls[i]? = some c)
    (hopen : c.stage.isReturned = false) (stage : Stage) {d e : SetCall}
    (hd : (s.setStage i c stage).calls[j]? = some d) (he : (s.setStage i c stage).calls[k]? = some e)
    (hcaller : d.caller = e.caller) (hlt : j < k) : d.stage.isReturned = true := by
  rcases getElem?_setStage hd with ⟨rfl, rfl⟩ | ⟨hj, hd⟩
  · rcases getElem?_setStage he with ⟨rfl, -⟩ | ⟨-, he⟩
    · exact absurd hlt (Nat.lt_irrefl _)
    · have hreturned := h.turns i k c e hc he hcaller hlt
      rw [hopen] at hreturned
      cases hreturned
  · rcases getElem?_setStage he with ⟨rfl, rfl⟩ | ⟨-, he⟩
    · exact h.turns j i d c hd hc hcaller hlt
    · exact h.turns j k d e hd he hcaller hlt

theorem Inv.exact_setStage (h : Inv base s) (hc : s.calls[i]? = some c) (stage : Stage) {e : Saved}
    (he : e ∈ s.saved) : ∃ d : SetCall, (s.setStage i c stage).calls[e.call]? = some d ∧
      e = ⟨e.call, d.caller, d.path, d.key, d.value⟩ := by
  obtain ⟨d, hd, heq⟩ := h.exact e he
  rw [State.setStage, List.getElem?_set]
  by_cases hi : i = e.call
  · rw [← hi, hc] at hd
    cases hd
    rw [if_pos hi, if_pos (List.getElem?_eq_some_iff.mp hc).1]
    exact ⟨_, rfl, heq⟩
  · rw [if_neg hi]
    exact ⟨d, hd, heq⟩

theorem returned_setStage_iff (hc : s.calls[i]? = some c) (hopen : c.stage.isReturned = false)
    (hstage : stage ≠ .returned true) (j : ℕ) :
    (∃ d : SetCall, (s.setStage i c stage).calls[j]? = some d ∧ d.stage = .returned true) ↔
      ∃ d : SetCall, s.calls[j]? = some d ∧ d.stage = .returned true := by
  constructor
  · rintro ⟨d, hd, hreturned⟩
    rcases getElem?_setStage hd with ⟨-, rfl⟩ | ⟨-, hd⟩
    · exact absurd hreturned hstage
    · exact ⟨d, hd, hreturned⟩
  · rintro ⟨d, hd, hreturned⟩
    have hj : i ≠ j := by
      rintro rfl
      rw [hc] at hd
      cases hd
      rw [hreturned] at hopen
      cases hopen
    refine ⟨d, ?_, hreturned⟩
    rw [State.setStage, List.getElem?_set_ne hj]
    exact hd

/-- A step that takes the lock, keeps it or lets it go, and replaces nothing. -/
theorem Inv.shift (h : Inv base s) (hc : s.calls[i]? = some c) (hopen : c.stage.isReturned = false)
    (hcell : s.cells[c.cell]? = some cell) (hlock : cell.holder = none ∨ cell.holder = some i)
    {holder : Option ℕ} (hfrom : ∀ next, c.stage ≠ .publishing next)
    (hto : ∀ next, stage ≠ .publishing next) (hstage : stage ≠ .returned true)
    (hnext : ∀ next, stage.next? = some next →
      holder = some i ∧ next = cell.values.insert c.key c.value) :
    Inv base { s.setStage i c stage with
      cells := s.cells.set c.cell { cell with holder := holder } } where
  linked := h.linked
  placed := fun path k hk => by
    obtain ⟨y, hy, hpath⟩ := h.placed path k hk
    obtain ⟨z, hz, hsame⟩ := exists_relock (x := { cell with holder }) hcell rfl hy
    exact ⟨z, hz, hsame.trans hpath⟩
  owned := fun j d hd hd' => h.owned_setStage hc hopen stage hd hd'
  held := fun j d next hd hheld => by
    rcases getElem?_setStage hd with ⟨rfl, rfl⟩ | ⟨hj, hd⟩
    · obtain ⟨hholder, hvalues⟩ := hnext next hheld
      refine ⟨{ cell with holder := holder }, ?_, hholder, hvalues⟩
      rw [List.getElem?_set, if_pos rfl, if_pos (List.getElem?_eq_some_iff.mp hcell).1]
    · obtain ⟨x, hx, hxholder, hxnext⟩ := h.held j d next hd hheld
      have hne := h.sole hcell hlock hd hheld (Ne.symm hj)
      exact ⟨x, by rw [List.getElem?_set_ne (Ne.symm hne)]; exact hx, hxholder, hxnext⟩
  memory := fun a ha hlive x hx => by
    obtain ⟨y, hy, -, hvalues⟩ := getElem?_relock hcell hx
    rw [hvalues]
    exact h.memory a ha hlive y hy
  file := fun path hsettled => by
    refine h.file path fun j d next hd hpath hpublishing => ?_
    have hj : i ≠ j := by
      rintro rfl
      rw [hc] at hd
      cases hd
      exact hfrom next hpublishing
    refine hsettled j d next ?_ hpath hpublishing
    rw [State.setStage, List.getElem?_set_ne hj]
    exact hd
  midway := fun j d next hd hpublishing => by
    rcases getElem?_setStage hd with ⟨-, rfl⟩ | ⟨-, hd⟩
    · exact absurd hpublishing (hto next)
    · exact h.midway j d next hd hpublishing
  saved := fun j => (h.saved j).trans (returned_setStage_iff hc hopen hstage j).symm
  once := h.once
  exact := fun e he => h.exact_setStage hc stage he
  ordered := h.ordered
  turns := fun j k d e hd he hcaller hlt => h.turns_setStage hc hopen stage hd he hcaller hlt

theorem Inv.fail (h : Inv base s) (hc : s.calls[i]? = some c) {next : Values}
    (hheld : c.stage.next? = some next) (hcell : s.cells[c.cell]? = some cell)
    (hfrom : ∀ next, c.stage ≠ .publishing next) : Inv base (s.fail i c cell) := by
  obtain ⟨x, hx, hholder, -⟩ := h.held i c next hc hheld
  rw [hcell] at hx
  cases hx
  exact h.shift hc (isReturned_of_next hheld) hcell (.inr hholder) hfrom (fun next hp => by cases hp)
    (by intro hr; cases hr) fun next hn => by cases hn

/-- The next operation on the temporary file. -/
theorem Inv.proceed (h : Inv base s) (hc : s.calls[i]? = some c) {next : Values}
    (hheld : c.stage.next? = some next) (hfrom : ∀ next, c.stage ≠ .publishing next)
    (hstage : stage.next? = some next) (hto : ∀ next, stage ≠ .publishing next) :
    Inv base (s.setStage i c stage) := by
  obtain ⟨cell, hcell, hholder, hnext⟩ := h.held i c next hc hheld
  have hshift : Inv base { s.setStage i c stage with
      cells := s.cells.set c.cell { cell with holder := cell.holder } } := by
    refine h.shift hc (isReturned_of_next hheld) hcell (.inr hholder) hfrom hto ?_ ?_
    · intro hr
      rw [hr] at hstage
      cases hstage
    · intro next' hn
      rw [hstage] at hn
      cases hn
      exact ⟨hholder, hnext⟩
  obtain ⟨hlt, hget⟩ := List.getElem?_eq_some_iff.mp hcell
  have hsame : s.cells.set c.cell { cell with holder := cell.holder } = s.cells := by
    rw [← hget]
    exact List.set_getElem_self hlt
  rw [hsame] at hshift
  exact hshift

theorem read_update {files : String → Option codec.Bytes} {path path' : String} {next : Values} :
    read codec (Function.update files path (some (codec.toVecPretty next))) path' =
      if path' = path then some next else read codec files path' := by
  by_cases hpath : path' = path
  · rw [hpath, read, Function.update_self, if_pos rfl]
    exact codec.roundTrip next
  · rw [read, Function.update_of_ne hpath, if_neg hpath]
    rfl

/-- The rename: the file is the next map, and nobody else works on it. -/
theorem Inv.rename (h : Inv base s) (hc : s.calls[i]? = some c) {next : Values}
    (hstage : c.stage = .renaming next) :
    Inv base { s.setStage i c (.publishing next) with
      files := Function.update s.files c.path (some (codec.toVecPretty next)) } := by
  have hheld : c.stage.next? = some next := by rw [hstage]; rfl
  have hopen := isReturned_of_next hheld
  obtain ⟨cell, hcell, hholder, hnext⟩ := h.held i c next hc hheld
  have hlt := (List.getElem?_eq_some_iff.mp hc).1
  have hothers : ∀ (j : ℕ) (d : SetCall) (w : Values), s.calls[j]? = some d →
      d.stage = .publishing w → i ≠ j ∧ d.path ≠ c.path := by
    intro j d w hd hpublishing
    have hj : i ≠ j := by
      rintro rfl
      rw [hc] at hd
      cases hd
      rw [hstage] at hpublishing
      cases hpublishing
    have hdnext : d.stage.next? = some w := by rw [hpublishing]; rfl
    refine ⟨hj, fun hpath => h.sole hcell (.inr hholder) hd hdnext (Ne.symm hj) ?_⟩
    obtain ⟨a, ha, hla, hpa, hca⟩ := h.owner hc hopen
    obtain ⟨b, hb, hlb, hpb, hcb⟩ := h.owner hd (isReturned_of_next hdnext)
    rw [← hca, ← hcb]
    exact h.same_cell hb ha hlb hla (by rw [hpa, hpb, hpath])
  constructor
  · exact h.linked
  · exact h.placed
  · exact fun j d hd hd' => h.owned_setStage hc hopen _ hd hd'
  · intro j d w hd hdheld
    rcases getElem?_setStage hd with ⟨rfl, rfl⟩ | ⟨-, hd⟩
    · cases hdheld
      exact ⟨cell, hcell, hholder, hnext⟩
    · exact h.held j d w hd hdheld
  · exact h.memory
  · intro path hsettled
    have hpath : path ≠ c.path := by
      rintro rfl
      refine hsettled i { c with stage := .publishing next } next ?_ rfl rfl
      rw [State.setStage, List.getElem?_set_self hlt]
    rw [read_update, if_neg hpath]
    refine h.file path fun j d w hd hdpath hpublishing => ?_
    refine hsettled j d w ?_ hdpath hpublishing
    rw [State.setStage, List.getElem?_set_ne (hothers j d w hd hpublishing).1]
    exact hd
  · intro j d w hd hpublishing
    rw [read_update]
    rcases getElem?_setStage hd with ⟨-, rfl⟩ | ⟨-, hd⟩
    · cases hpublishing
      rw [if_pos rfl]
    · rw [if_neg (hothers j d w hd hpublishing).2]
      exact h.midway j d w hd hpublishing
  · intro j
    exact (h.saved j).trans
      (returned_setStage_iff hc hopen (by intro hr; cases hr) j).symm
  · exact h.once
  · exact fun e he => h.exact_setStage hc _ he
  · exact h.ordered
  · exact fun j k d e hd he hcaller hlt => h.turns_setStage hc hopen _ hd he hcaller hlt

theorem committed_append (base : String → Option codec.Bytes) (s : State codec) (e : Saved)
    (path : String) : State.committed { s with saved := s.saved ++ [e] } base path =
      (s.committed base path).map fun values =>
        if e.path = path then values.insert e.key e.value else values := by
  rw [State.committed, State.committed, Option.map_map]
  refine congrArg (Option.map · _) (funext fun values => ?_)
  simp only [Function.comp_apply, List.foldl_append, List.foldl_cons, List.foldl_nil]

/-- The new map is published and the lock is free. -/
theorem Inv.publish (h : Inv base s) (hc : s.calls[i]? = some c) {next : Values}
    (hstage : c.stage = .publishing next) (hcell : s.cells[c.cell]? = some cell) :
    Inv base { s.setStage i c (.returned true) with
      cells := s.cells.set c.cell { cell with values := next, holder := none }
      saved := s.saved ++ [⟨i, c.caller, c.path, c.key, c.value⟩] } := by
  have hheld : c.stage.next? = some next := by rw [hstage]; rfl
  have hopen := isReturned_of_next hheld
  have hlt := (List.getElem?_eq_some_iff.mp hc).1
  have hcelllt := (List.getElem?_eq_some_iff.mp hcell).1
  obtain ⟨x, hx, hholder, hnext⟩ := h.held i c next hc hheld
  rw [hcell] at hx
  cases hx
  obtain ⟨a, ha, hla, hpa, hca⟩ := h.owner hc hopen
  have hcommitted : s.committed base c.path = some cell.values := by
    rw [← hpa]
    exact h.memory a ha hla cell (hca ▸ hcell)
  have hafter : ∀ path, State.committed { s with
      saved := s.saved ++ [⟨i, c.caller, c.path, c.key, c.value⟩] } base path =
      if path = c.path then some next else s.committed base path := by
    intro path
    rw [committed_append]
    by_cases hpath : path = c.path
    · rw [if_pos hpath, hpath, hcommitted, Option.map_some, if_pos rfl, hnext]
    · rw [if_neg hpath]
      simp only [Ne.symm hpath, if_false, Option.map_id']
  have hfresh : i ∉ s.saved.map Saved.call := by
    rw [h.saved i]
    rintro ⟨d, hd, hreturned⟩
    rw [hc] at hd
    cases hd
    rw [hstage] at hreturned
    cases hreturned
  have hself : (s.setStage i c (.returned true)).calls[i]? = some { c with stage := .returned true } := by
    rw [State.setStage, List.getElem?_set_self hlt]
  constructor
  · exact h.linked
  · intro path k hk
    obtain ⟨y, hy, hpath⟩ := h.placed path k hk
    obtain ⟨z, hz, hsame⟩ := exists_relock (x := { cell with values := next, holder := none }) hcell
      rfl hy
    exact ⟨z, hz, hsame.trans hpath⟩
  · exact fun j d hd hd' => h.owned_setStage hc hopen _ hd hd'
  · intro j d w hd hdheld
    rcases getElem?_setStage hd with ⟨-, rfl⟩ | ⟨hj, hd⟩
    · cases hdheld
    · obtain ⟨y, hy, hyholder, hynext⟩ := h.held j d w hd hdheld
      have hne := h.sole hcell (.inr hholder) hd hdheld (Ne.symm hj)
      exact ⟨y, by rw [List.getElem?_set_ne (Ne.symm hne)]; exact hy, hyholder, hynext⟩
  · intro b hb hlb y hy
    refine (hafter b.path).trans ?_
    by_cases hsame : b.cell = c.cell
    · have hpath : b.path = c.path := hpa ▸ h.same_path hb ha hlb hla (by rw [hsame, hca])
      rw [hsame, List.getElem?_set_self hcelllt] at hy
      cases hy
      rw [if_pos hpath]
    · have hpath : b.path ≠ c.path := fun hpath =>
        hsame (hca ▸ h.same_cell hb ha hlb hla (by rw [hpath, hpa]))
      rw [List.getElem?_set_ne (Ne.symm hsame)] at hy
      rw [if_neg hpath]
      exact h.memory b hb hlb y hy
  · intro path hsettled
    refine Eq.trans ?_ (hafter path).symm
    by_cases hpath : path = c.path
    · rw [if_pos hpath, hpath]
      exact h.midway i c next hc hstage
    · rw [if_neg hpath]
      refine h.file path fun j d w hd hdpath hpublishing => ?_
      have hj : i ≠ j := by
        rintro rfl
        rw [hc] at hd
        cases hd
        exact hpath hdpath.symm
      refine hsettled j d w ?_ hdpath hpublishing
      rw [State.setStage, List.getElem?_set_ne hj]
      exact hd
  · intro j d w hd hpublishing
    rcases getElem?_setStage hd with ⟨-, rfl⟩ | ⟨-, hd⟩
    · cases hpublishing
    · exact h.midway j d w hd hpublishing
  · intro j
    simp only [List.map_append, List.map_cons, List.map_nil, List.mem_append, List.mem_singleton]
    constructor
    · rintro (hj | rfl)
      · obtain ⟨d, hd, hreturned⟩ := (h.saved j).mp hj
        have hne : i ≠ j := fun he => hfresh (he ▸ hj)
        exact ⟨d, by rw [State.setStage, List.getElem?_set_ne hne]; exact hd, hreturned⟩
      · exact ⟨_, hself, rfl⟩
    · rintro ⟨d, hd, hreturned⟩
      rcases getElem?_setStage hd with ⟨rfl, -⟩ | ⟨-, hd⟩
      · exact .inr rfl
      · exact .inl ((h.saved j).mpr ⟨d, hd, hreturned⟩)
  · simp only [List.map_append, List.map_cons, List.map_nil]
    refine List.nodup_append.mpr ⟨h.once, List.nodup_singleton _, ?_⟩
    rintro x hx y hy rfl
    rw [List.mem_singleton] at hy
    exact hfresh (hy ▸ hx)
  · intro e he
    rcases List.mem_append.mp he with he | he
    · exact h.exact_setStage hc _ he
    · cases List.mem_singleton.mp he
      exact ⟨_, hself, rfl⟩
  · refine List.pairwise_append.mpr ⟨h.ordered, List.pairwise_singleton _ _, ?_⟩
    intro e he f hf hcaller
    cases List.mem_singleton.mp hf
    obtain ⟨d, hd, heq⟩ := h.exact e he
    have hdcaller : e.caller = d.caller := by rw [heq]
    have hne : e.call ≠ i := fun hi => hfresh (hi ▸ List.mem_map_of_mem he)
    by_contra hle
    have hreturned := h.turns i e.call c d hc hd (hcaller.symm.trans hdcaller) (by
      have hnot : ¬ e.call < i := hle
      omega)
    rw [hopen] at hreturned
    cases hreturned
  · exact fun j k d e hd he hcaller hlt => h.turns_setStage hc hopen _ hd he hcaller hlt

/-! ### Handles -/

theorem Inv.retained (h : Inv base s) {a : Handle} (ha : a ∈ s.handles) (hla : a.live = true) :
    Dict.get? s.retained a.path = some a.cell := by
  rw [State.retained, Dict.get?_retain, h.linked a ha hla, Option.filter_some, if_pos]
  rw [State.strong, List.any_eq_true]
  exact ⟨a, ha, by rw [hla, decide_eq_true rfl]; rfl⟩

theorem get?_of_retained {path : String} (hk : Dict.get? s.retained path = some k) :
    Dict.get? s.registry path = some k ∧ ∃ a ∈ s.handles, a.live = true ∧ a.cell = k := by
  rw [State.retained, Dict.get?_retain, Option.filter_eq_some_iff] at hk
  obtain ⟨hget, hstrong⟩ := hk
  obtain ⟨a, ha, hboth⟩ := List.any_eq_true.mp hstrong
  rw [Bool.and_eq_true, decide_eq_true_eq] at hboth
  exact ⟨hget, a, ha, hboth⟩

theorem getElem?_append_of_some {α : Type} {xs ys : List α} {n : ℕ} {x : α} (h : xs[n]? = some x) :
    (xs ++ ys)[n]? = some x := by
  rw [List.getElem?_append_left (List.getElem?_eq_some_iff.mp h).1]
  exact h

/-- One more handle of a cell that has one; the registry may forget dropped cells. -/
theorem Inv.share (h : Inv base s) {registry : Dict String ℕ}
    (hkept : ∀ a ∈ s.handles, a.live = true → Dict.get? registry a.path = some a.cell)
    (hold : ∀ path k, Dict.get? registry path = some k → Dict.get? s.registry path = some k)
    {a b : Handle} (ha : a ∈ s.handles) (hla : a.live = true) (hpath : b.path = a.path)
    (hcell : b.cell = a.cell) :
    Inv base { s with registry := registry, handles := s.handles ++ [b] } := by
  constructor
  · intro x hx hlx
    rcases List.mem_append.mp hx with hx | hx
    · exact hkept x hx hlx
    · cases List.mem_singleton.mp hx
      rw [hpath, hcell]
      exact hkept a ha hla
  · exact fun path k hk => h.placed path k (hold path k hk)
  · exact fun i c hc hopen => getElem?_append_of_some (h.owned i c hc hopen)
  · exact h.held
  · intro x hx hlx cell hget
    rcases List.mem_append.mp hx with hx | hx
    · exact h.memory x hx hlx cell hget
    · cases List.mem_singleton.mp hx
      rw [hpath]
      exact h.memory a ha hla cell (hcell ▸ hget)
  · exact h.file
  · exact h.midway
  · exact h.saved
  · exact h.once
  · exact h.exact
  · exact h.ordered
  · exact h.turns

theorem Inv.load (h : Inv base s) (path : String) : Inv base (s.load path) := by
  unfold State.load
  split
  next k hk =>
    obtain ⟨hget, a, ha, hla, hcell⟩ := get?_of_retained hk
    obtain ⟨x, hx, hpx⟩ := h.placed _ _ hget
    obtain ⟨y, hy, hpy⟩ := h.placed _ _ (h.linked a ha hla)
    rw [hcell, hx] at hy
    cases hy
    exact h.share (fun b hb hlb => h.retained hb hlb) (fun p n hn => (get?_of_retained hn).1) ha hla
      (hpx.symm.trans hpy) hcell.symm
  next hnone =>
    split
    · exact ⟨fun a ha hla => h.retained ha hla, fun p k hk => h.placed p k (get?_of_retained hk).1,
        h.owned, h.held, h.memory, h.file, h.midway, h.saved, h.once, h.exact, h.ordered, h.turns⟩
    next values hread =>
      have hother : ∀ a ∈ s.handles, a.live = true → a.path ≠ path := by
        rintro a ha hla rfl
        rw [h.retained ha hla] at hnone
        cases hnone
      have hsettled : s.Settled path := by
        intro i c next hc hpath hpublishing
        have hnext : c.stage.next? = some next := by rw [hpublishing]; rfl
        obtain ⟨a, ha, hla, hpa, -⟩ := h.owner hc (isReturned_of_next hnext)
        exact hother a ha hla (hpa.trans hpath)
      constructor
      · intro a ha hla
        rw [Dict.get?_insert]
        rcases List.mem_append.mp ha with ha | ha
        · rw [if_neg (hother a ha hla)]
          exact h.retained ha hla
        · cases List.mem_singleton.mp ha
          exact if_pos rfl
      · intro p k hk
        rw [Dict.get?_insert] at hk
        split_ifs at hk with hp
        · cases hk
          exact ⟨_, List.getElem?_concat_length, hp.symm⟩
        · obtain ⟨x, hx, hpx⟩ := h.placed p k (get?_of_retained hk).1
          exact ⟨x, getElem?_append_of_some hx, hpx⟩
      · exact fun i c hc hopen => getElem?_append_of_some (h.owned i c hc hopen)
      · intro i c next hc hnext
        obtain ⟨x, hx, hheld⟩ := h.held i c next hc hnext
        exact ⟨x, getElem?_append_of_some hx, hheld⟩
      · intro a ha hla cell hcell
        rcases List.mem_append.mp ha with ha | ha
        · obtain ⟨x, hx, -⟩ := h.placed _ _ (h.linked a ha hla)
          rw [getElem?_append_of_some hx] at hcell
          cases hcell
          exact h.memory a ha hla _ hx
        · cases List.mem_singleton.mp ha
          rw [List.getElem?_concat_length] at hcell
          cases hcell
          exact (h.file path hsettled).symm.trans hread
      · exact h.file
      · exact h.midway
      · exact h.saved
      · exact h.once
      · exact h.exact
      · exact h.ordered
      · exact h.turns

theorem Inv.drop (h : Inv base s) {n : ℕ} {handle : Handle}
    (hidle : ∀ c ∈ s.calls, c.store = n → c.stage.isReturned = true) :
    Inv base { s with handles := s.handles.set n { handle with live := false } } := by
  have hlive : ∀ a ∈ s.handles.set n { handle with live := false }, a.live = true →
      a ∈ s.handles := by
    intro a ha hla
    rcases List.mem_or_eq_of_mem_set ha with ha | rfl
    · exact ha
    · cases hla
  constructor
  · exact fun a ha hla => h.linked a (hlive a ha hla) hla
  · exact h.placed
  · intro i c hc hopen
    have hstore : n ≠ c.store := by
      intro hn
      rw [hidle c (List.mem_of_getElem? hc) hn.symm] at hopen
      cases hopen
    rw [List.getElem?_set_ne hstore]
    exact h.owned i c hc hopen
  · exact h.held
  · exact fun a ha hla => h.memory a (hlive a ha hla) hla
  · exact h.file
  · exact h.midway
  · exact h.saved
  · exact h.once
  · exact h.exact
  · exact h.ordered
  · exact h.turns

theorem Inv.set (h : Inv base s) {n caller : ℕ} {handle : Handle} (hn : s.handles[n]? = some handle)
    (hlive : handle.live = true)
    (hidle : ∀ c ∈ s.calls, c.caller = caller → c.stage.isReturned = true) (key value : String) :
    Inv base { s with
      calls := s.calls ++ [⟨caller, n, handle.path, handle.cell, key, value, .waiting⟩] } := by
  have hcalls : ∀ {j : ℕ} {d : SetCall},
      (s.calls ++ [⟨caller, n, handle.path, handle.cell, key, value, .waiting⟩])[j]? = some d →
      s.calls[j]? = some d ∨ j = s.calls.length ∧
        d = ⟨caller, n, handle.path, handle.cell, key, value, .waiting⟩ := by
    intro j d hd
    rcases Nat.lt_trichotomy j s.calls.length with hj | rfl | hj
    · rw [List.getElem?_append_left hj] at hd
      exact .inl hd
    · rw [List.getElem?_concat_length] at hd
      exact .inr ⟨rfl, (Option.some.inj hd).symm⟩
    · rw [List.getElem?_eq_none (by rw [List.length_append, List.length_singleton]; omega)] at hd
      cases hd
  constructor
  · exact h.linked
  · exact h.placed
  · intro j d hd hopen
    rcases hcalls hd with hd | ⟨-, rfl⟩
    · exact h.owned j d hd hopen
    · rw [hn, ← hlive]
  · intro j d next hd hnext
    rcases hcalls hd with hd | ⟨-, rfl⟩
    · exact h.held j d next hd hnext
    · cases hnext
  · exact h.memory
  · intro path hsettled
    refine h.file path fun j d next hd => ?_
    exact hsettled j d next (getElem?_append_of_some hd)
  · intro j d next hd hpublishing
    rcases hcalls hd with hd | ⟨-, rfl⟩
    · exact h.midway j d next hd hpublishing
    · cases hpublishing
  · intro j
    refine (h.saved j).trans ⟨?_, ?_⟩
    · rintro ⟨d, hd, hreturned⟩
      exact ⟨d, getElem?_append_of_some hd, hreturned⟩
    · rintro ⟨d, hd, hreturned⟩
      rcases hcalls hd with hd | ⟨-, rfl⟩
      · exact ⟨d, hd, hreturned⟩
      · cases hreturned
  · exact h.once
  · intro e he
    obtain ⟨d, hd, heq⟩ := h.exact e he
    exact ⟨d, getElem?_append_of_some hd, heq⟩
  · exact h.ordered
  · intro j k d e hd he hcaller hlt
    rcases hcalls he with he | ⟨rfl, rfl⟩
    · have hj : j < s.calls.length := Nat.lt_trans hlt (List.getElem?_eq_some_iff.mp he).1
      rw [List.getElem?_append_left hj] at hd
      exact h.turns j k d e hd he hcaller hlt
    · rw [List.getElem?_append_left hlt] at hd
      exact hidle d (List.mem_of_getElem? hd) hcaller

/-! ### Runs -/

/-- The temporary file is opened, written or synced, or the call fails. -/
theorem Inv.attempt (h : Inv base s) (hc : s.calls[i]? = some c)
    (hcell : s.cells[c.cell]? = some cell) {next : Values} (hheld : c.stage.next? = some next)
    (hfrom : ∀ w, c.stage ≠ .publishing w) (hstage : stage.next? = some next)
    (hto : ∀ w, stage ≠ .publishing w) (ok : Bool) :
    Inv base (if ok then s.setStage i c stage else s.fail i c cell) := by
  split_ifs
  · exact h.proceed hc hheld hfrom hstage hto
  · exact h.fail hc hheld hcell hfrom

theorem Inv.advance (h : Inv base s) (hc : s.calls[i]? = some c) (hcell : s.cells[c.cell]? = some cell)
    {ok : Bool} (hs : s.advance i c cell ok = some t) : Inv base t := by
  unfold State.advance at hs
  split at hs
  next hstage =>
    obtain ⟨hfree, hs⟩ := Option.ite_none_right_eq_some.mp hs
    cases hs
    refine h.shift hc (by rw [hstage]; rfl) hcell (.inl hfree) ?_ ?_ ?_ ?_
    · intro next hp
      rw [hstage] at hp
      cases hp
    · intro next hp
      cases hp
    · intro hr
      cases hr
    · intro next hn
      cases hn
      exact ⟨rfl, rfl⟩
  next next hstage =>
    cases Option.some.inj hs
    refine h.attempt hc hcell (by rw [hstage]; rfl) ?_ rfl (fun w hp => by cases hp) ok
    intro w hp
    rw [hstage] at hp
    cases hp
  next next hstage =>
    cases Option.some.inj hs
    refine h.attempt hc hcell (by rw [hstage]; rfl) ?_ rfl (fun w hp => by cases hp) ok
    intro w hp
    rw [hstage] at hp
    cases hp
  next next hstage =>
    cases Option.some.inj hs
    refine h.attempt hc hcell (by rw [hstage]; rfl) ?_ rfl (fun w hp => by cases hp) ok
    intro w hp
    rw [hstage] at hp
    cases hp
  next next hstage =>
    have hheld : c.stage.next? = some next := by rw [hstage]; rfl
    cases Option.some.inj hs
    split_ifs
    · exact h.rename hc hstage
    · exact h.fail hc hheld hcell fun w hp => by rw [hstage] at hp; cases hp
  next next hstage =>
    cases Option.some.inj hs
    exact h.publish hc hstage hcell
  next hstage => cases hs

theorem Inv.step (h : Inv base s) {a : Action} (hs : step s a = some t) : Inv base t := by
  cases a with
  | load path =>
    cases Option.some.inj hs
    exact h.load path
  | clone n =>
    simp only [StateStore.step] at hs
    split at hs
    next handle hn =>
      obtain ⟨hlive, hs⟩ := Option.ite_none_right_eq_some.mp hs
      cases hs
      exact h.share h.linked (fun _ _ hk => hk) (List.mem_of_getElem? hn) hlive rfl rfl
    next => cases hs
  | drop n =>
    simp only [StateStore.step] at hs
    split at hs
    next handle hn =>
      obtain ⟨hguard, hs⟩ := Option.ite_none_right_eq_some.mp hs
      cases hs
      rw [Bool.and_eq_true, List.all_eq_true] at hguard
      refine h.drop fun c hc hstore => ?_
      have hboth := hguard.2 c hc
      rw [Bool.or_eq_true, decide_eq_true_eq] at hboth
      exact hboth.resolve_left fun hne => hne hstore
    next => cases hs
  | set caller n key value =>
    simp only [StateStore.step] at hs
    split at hs
    next handle hn =>
      obtain ⟨hguard, hs⟩ := Option.ite_none_right_eq_some.mp hs
      cases hs
      rw [Bool.and_eq_true, List.all_eq_true] at hguard
      refine h.set hn hguard.1 (fun c hc hcaller => ?_) key value
      have hboth := hguard.2 c hc
      rw [Bool.or_eq_true, decide_eq_true_eq] at hboth
      exact hboth.resolve_left fun hne => hne hcaller
    next => cases hs
  | advance i ok =>
    simp only [StateStore.step] at hs
    split at hs
    next c hc =>
      split at hs
      next cell hcell => exact h.advance hc hcell hs
      next => cases hs
    next => cases hs

theorem Inv.agreement (h : Inv base s) : Agreement base s := by
  have hcell : ∀ a ∈ s.handles, a.live = true → ∃ cell : Cell, s.cells[a.cell]? = some cell := by
    intro a ha hla
    obtain ⟨cell, hcell, -⟩ := h.placed _ _ (h.linked a ha hla)
    exact ⟨cell, hcell⟩
  -- a call that publishes on the path of a handle has the lock of its map
  have hlock : ∀ a ∈ s.handles, a.live = true → ∀ cell : Cell, s.cells[a.cell]? = some cell →
      ∀ (i : ℕ) (c : SetCall) (next : Values), s.calls[i]? = some c → c.path = a.path →
        c.stage = .publishing next →
        cell.holder = some i ∧ next = cell.values.insert c.key c.value := by
    intro a ha hla cell hget i c next hc hpath hpublishing
    have hheld : c.stage.next? = some next := by rw [hpublishing]; rfl
    obtain ⟨b, hb, hlb, hpb, hcb⟩ := h.owner hc (isReturned_of_next hheld)
    obtain ⟨x, hx, hxholder, hxnext⟩ := h.held i c next hc hheld
    rw [← hcb, h.same_cell hb ha hlb hla (hpb.trans hpath), hget] at hx
    cases hx
    exact ⟨hxholder, hxnext⟩
  constructor
  · intro a ha hla
    obtain ⟨cell, hget⟩ := hcell a ha hla
    exact ⟨cell, hget, h.memory a ha hla cell hget⟩
  · intro a ha hla cell hget hfree
    rw [← h.memory a ha hla cell hget]
    refine h.file a.path fun i c next hc hpath hpublishing => ?_
    rw [(hlock a ha hla cell hget i c next hc hpath hpublishing).1] at hfree
    cases hfree
  · intro a ha hla cell hget
    by_cases hsettled : s.Settled a.path
    · exact .inl ((h.file a.path hsettled).trans (h.memory a ha hla cell hget))
    · simp only [State.Settled, not_forall, not_not] at hsettled
      obtain ⟨i, c, next, hc, hpath, hpublishing⟩ := hsettled
      obtain ⟨hholder, hnext⟩ := hlock a ha hla cell hget i c next hc hpath hpublishing
      exact .inr ⟨i, c, next, hholder, hc, hpublishing, hpath ▸ h.midway i c next hc hpublishing,
        hnext⟩
  · exact h.saved
  · exact h.once
  · exact h.exact
  · exact h.ordered

/-- The files and the maps are as they were. -/
def State.Unchanged (s t : State codec) : Prop :=
  t.files = s.files ∧ t.cells.map Cell.values = s.cells.map Cell.values

theorem values_relock {n : ℕ} (hcell : s.cells[n]? = some cell) (holder : Option ℕ) :
    (s.cells.set n { cell with holder := holder }).map Cell.values = s.cells.map Cell.values := by
  obtain ⟨hlt, hget⟩ := List.getElem?_eq_some_iff.mp hcell
  have hmap : n < (s.cells.map Cell.values).length := by rwa [List.length_map]
  have hself : cell.values = (s.cells.map Cell.values)[n] := by
    rw [List.getElem_map, hget]
  rw [List.map_set]
  exact (congrArg _ hself).trans (List.set_getElem_self _)

theorem getElem?_setStage_self (hc : s.calls[i]? = some c) (stage : Stage) :
    (s.setStage i c stage).calls[i]? = some { c with stage := stage } :=
  List.getElem?_set_self (List.getElem?_eq_some_iff.mp hc).1

/-- A step of a call changes nothing, unless it replaces the file or the map. -/
theorem advance_cases {ok : Bool} (hs : step s (.advance i ok) = some t) :
    s.Unchanged t ∨ ∃ d : SetCall, t.calls[i]? = some d ∧
      (d.stage.publishes.isSome ∨ d.stage = .returned true) := by
  simp only [step] at hs
  split at hs
  next c hc =>
    split at hs
    next cell hcell =>
      have hfail : s.Unchanged (s.fail i c cell) := ⟨rfl, values_relock hcell none⟩
      have hquiet : ∀ stage, s.Unchanged (if ok then s.setStage i c stage else s.fail i c cell) := by
        intro stage
        split_ifs
        · exact ⟨rfl, rfl⟩
        · exact hfail
      unfold State.advance at hs
      split at hs
      next =>
        obtain ⟨-, hs⟩ := Option.ite_none_right_eq_some.mp hs
        cases hs
        exact .inl ⟨rfl, values_relock hcell (some i)⟩
      next =>
        cases Option.some.inj hs
        exact .inl (hquiet _)
      next =>
        cases Option.some.inj hs
        exact .inl (hquiet _)
      next =>
        cases Option.some.inj hs
        exact .inl (hquiet _)
      next =>
        cases Option.some.inj hs
        split_ifs
        · exact .inr ⟨_, getElem?_setStage_self hc _, .inl rfl⟩
        · exact .inl hfail
      next =>
        cases Option.some.inj hs
        exact .inr ⟨_, getElem?_setStage_self hc _, .inr rfl⟩
      next => cases hs
    next => cases hs
  next => cases hs

/-- A call that has replaced the file returns `Ok`. -/
theorem publishing_returns {ok : Bool} (hc : s.calls[i]? = some c)
    (hpublishing : c.stage.publishes.isSome) (hs : step s (.advance i ok) = some t) :
    ∃ d : SetCall, t.calls[i]? = some d ∧ d.stage = .returned true := by
  cases hstage : c.stage with
  | publishing next =>
    simp only [step, hc] at hs
    split at hs
    next cell hcell =>
      simp only [State.advance, hstage, Option.some.injEq] at hs
      cases hs
      exact ⟨_, getElem?_setStage_self hc _, rfl⟩
    next => cases hs
  | _ =>
    rw [hstage] at hpublishing
    cases hpublishing

/-- In every interleaving, whatever operations on files fail, files and maps
agree and are the result of the calls that returned `Ok`; a call that returns an
error has changed neither. -/
theorem state_store_agrees (codec : Codec) (base : String → Option codec.Bytes) :
    (∀ s, (machine codec).Reachable (State.start base) s → Agreement base s) ∧
      (∀ (s t : State codec) (i : ℕ) (ok : Bool), step s (.advance i ok) = some t →
        s.Unchanged t ∨ ∃ d : SetCall, t.calls[i]? = some d ∧
          (d.stage.publishes.isSome ∨ d.stage = .returned true)) ∧
      ∀ (s t : State codec) (i : ℕ) (ok : Bool) (c : SetCall), s.calls[i]? = some c →
        c.stage.publishes.isSome → step s (.advance i ok) = some t →
        ∃ d : SetCall, t.calls[i]? = some d ∧ d.stage = .returned true := by
  refine ⟨fun s hs => ?_, fun s t i ok hs => advance_cases hs,
    fun s t i ok c hc hpublishing hs => publishing_returns hc hpublishing hs⟩
  have hinv : Inv base s := Machine.Reach.invariant (I := Inv base) hs (inv_start base)
    fun s a t hi _ hstep => hi.step hstep
  exact hinv.agreement

/-- The map as it is. -/
def plainCodec : Codec := ⟨Values, id, some, fun _ => rfl⟩

/-- Two handles of one path; the rename of the first call fails while the second waits. -/
example : (((machine plainCodec).exec (State.start fun _ => none)
    [.load "s", .load "s", .set 0 0 "k" "1", .set 1 1 "k" "2", .advance 0 true, .advance 0 true,
      .advance 0 true, .advance 0 true, .advance 0 false, .advance 1 true, .advance 1 true,
      .advance 1 true, .advance 1 true, .advance 1 true, .advance 1 true]).map
    fun s => s.saved.map Saved.call) = some [1] := by decide +kernel

end Jaiba.Engine.StateStore
