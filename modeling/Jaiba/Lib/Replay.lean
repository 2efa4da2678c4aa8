import Mathlib.Data.List.Nodup
import Jaiba.Lib.Dict

/-!
# Replay of keyed logs

A log of insertions and tombstones, replayed into a dictionary. Every value
belongs to a group and a key may not pass from one group to another without a
tombstone in between: such an entry is a conflict. The logs of several groups
are replayed one after another, in an order that need not be the order in which
they were written, and the results say when that rebuilds the dictionary the
writers had.
-/

namespace Jaiba.Lib

/-- `value = none` is a tombstone. -/
structure LogEntry (κ ν : Type) where
  key : κ
  value : Option ν
  deriving DecidableEq, Repr

namespace Replay

variable {κ ν γ : Type} [DecidableEq κ] [DecidableEq γ] (group : ν → γ)

def apply (index : Dict κ ν) (e : LogEntry κ ν) : Option (Dict κ ν) :=
  match e.value with
  | none => some (Dict.erase index e.key)
  | some v =>
    match Dict.get? index e.key with
    | some w => if group w = group v then some (Dict.insert index e.key v) else none
    | none => some (Dict.insert index e.key v)

/-- `none` where an entry conflicts. -/
def replay (index : Dict κ ν) : List (LogEntry κ ν) → Option (Dict κ ν)
  | [] => some index
  | e :: log => (apply group index e).bind fun index => replay index log

/-- What the last entry of a key says of it. -/
def last : List (LogEntry κ ν) → κ → Option (Option ν)
  | [], _ => none
  | e :: log, k => (last log k).or (if e.key = k then some e.value else none)

def first : List (LogEntry κ ν) → κ → Option (Option ν)
  | [], _ => none
  | e :: log, k => if e.key = k then some e.value else first log k

theorem last_append (l l' : List (LogEntry κ ν)) (k : κ) :
    last (l ++ l') k = (last l' k).or (last l k) := by
  induction l with
  | nil => rw [List.nil_append, last, Option.or_none]
  | cons e l ih => rw [List.cons_append, last, last, ih, Option.or_assoc]

theorem first_append (l l' : List (LogEntry κ ν)) (k : κ) :
    first (l ++ l') k = (first l k).or (first l' k) := by
  induction l with
  | nil => rw [List.nil_append, first, Option.none_or]
  | cons e l ih =>
    rw [List.cons_append, first, first]
    split
    · rfl
    · exact ih

theorem exists_of_last {l : List (LogEntry κ ν)} {k : κ} {x : Option ν} (h : last l k = some x) :
    ∃ e ∈ l, e.key = k ∧ e.value = x := by
  induction l with
  | nil => cases h
  | cons e l ih =>
    rw [last, Option.or_eq_some_iff] at h
    rcases h with h | ⟨-, h⟩
    · obtain ⟨e', he', hk⟩ := ih h
      exact ⟨e', List.mem_cons_of_mem e he', hk⟩
    · split at h
      next hk => exact ⟨e, List.mem_cons_self, hk, Option.some.inj h⟩
      next => cases h

theorem exists_of_first {l : List (LogEntry κ ν)} {k : κ} {x : Option ν} (h : first l k = some x) :
    ∃ e ∈ l, e.key = k ∧ e.value = x := by
  induction l with
  | nil => cases h
  | cons e l ih =>
    rw [first] at h
    split at h
    next hk => exact ⟨e, List.mem_cons_self, hk, Option.some.inj h⟩
    next =>
      obtain ⟨e', he', hk⟩ := ih h
      exact ⟨e', List.mem_cons_of_mem e he', hk⟩

theorem first_none_iff {l : List (LogEntry κ ν)} {k : κ} :
    first l k = none ↔ ∀ e ∈ l, e.key ≠ k := by
  induction l with
  | nil => exact ⟨fun _ e he => (List.not_mem_nil he).elim, fun _ => rfl⟩
  | cons e l ih =>
    rw [first, List.forall_mem_cons]
    split
    next hk => exact ⟨fun h => (Option.some_ne_none _ h).elim, fun h => (h.1 hk).elim⟩
    next hk => rw [ih]; exact ⟨fun h => ⟨hk, h⟩, fun h => h.2⟩

theorem last_none_of {l : List (LogEntry κ ν)} {k : κ} (h : ∀ e ∈ l, e.key ≠ k) :
    last l k = none := by
  cases hl : last l k with
  | none => rfl
  | some x =>
    obtain ⟨e, he, hk, -⟩ := exists_of_last hl
    exact (h e he hk).elim

theorem first_flatMap {ι : Type} {gs : List ι} {log : ι → List (LogEntry κ ν)} {k : κ}
    {x : Option ν} (h : first (gs.flatMap log) k = some x) : ∃ g ∈ gs, first (log g) k = some x := by
  induction gs with
  | nil => cases h
  | cons g gs ih =>
    rw [List.flatMap_cons, first_append, Option.or_eq_some_iff] at h
    rcases h with h | ⟨-, h⟩
    · exact ⟨g, List.mem_cons_self, h⟩
    · obtain ⟨g', hg', h'⟩ := ih h
      exact ⟨g', List.mem_cons_of_mem g hg', h'⟩

theorem replay_append (index : Dict κ ν) (l l' : List (LogEntry κ ν)) :
    replay group index (l ++ l') = (replay group index l).bind fun j => replay group j l' := by
  induction l generalizing index with
  | nil => rfl
  | cons e l ih =>
    rw [List.cons_append, replay, replay, Option.bind_assoc]
    exact Option.bind_congr fun j _ => ih j

variable {group}

theorem get?_apply {index j : Dict κ ν} {e : LogEntry κ ν} (h : apply group index e = some j) (k : κ) :
    Dict.get? j k = if e.key = k then e.value else Dict.get? index k := by
  have hinsert (v : ν) : Dict.get? (Dict.insert index e.key v) k =
      if e.key = k then some v else Dict.get? index k := by
    rw [Dict.get?_insert]
    exact if_congr eq_comm rfl rfl
  rw [apply] at h
  cases hv : e.value with
  | none =>
    rw [hv] at h
    cases Option.some.inj h
    rw [Dict.get?_erase]
    exact if_congr eq_comm rfl rfl
  | some v =>
    rw [hv] at h
    dsimp only at h
    split at h
    · split at h
      · cases Option.some.inj h
        exact hinsert v
      · cases h
    · cases Option.some.inj h
      exact hinsert v

/-- A replay that meets no conflict leaves each key as its last entry says. -/
theorem get?_replay {index j : Dict κ ν} {l : List (LogEntry κ ν)}
    (h : replay group index l = some j) (k : κ) :
    Dict.get? j k = (last l k).getD (Dict.get? index k) := by
  induction l generalizing index with
  | nil =>
    cases Option.some.inj h
    rfl
  | cons e l ih =>
    obtain ⟨i, hi, hj⟩ := Option.bind_eq_some_iff.mp h
    rw [ih hj, get?_apply hi, last]
    cases last l k with
    | some x => rfl
    | none => split <;> rfl

/-- A replay depends on what the dictionary holds only. -/
theorem replay_congr {index index' j : Dict κ ν} {l : List (LogEntry κ ν)}
    (hsame : ∀ k, Dict.get? index' k = Dict.get? index k) (h : replay group index l = some j) :
    ∃ j', replay group index' l = some j' ∧ ∀ k, Dict.get? j' k = Dict.get? j k := by
  induction l generalizing index index' with
  | nil =>
    cases Option.some.inj h
    exact ⟨index', rfl, hsame⟩
  | cons e l ih =>
    obtain ⟨i, hi, hj⟩ := Option.bind_eq_some_iff.mp h
    have hstep : ∃ i', apply group index' e = some i' := by
      rw [apply] at hi ⊢
      cases hv : e.value with
      | none => exact ⟨_, rfl⟩
      | some v =>
        rw [hv] at hi
        dsimp only at hi ⊢
        rw [hsame]
        cases hw : Dict.get? index e.key with
        | none => exact ⟨_, rfl⟩
        | some w =>
          rw [hw] at hi
          have hgroup := (Option.ite_none_right_eq_some.mp hi).1
          exact ⟨_, if_pos hgroup⟩
    obtain ⟨i', hi'⟩ := hstep
    obtain ⟨j', hj', hget⟩ := ih (fun k => by rw [get?_apply hi', get?_apply hi, hsame]) hj
    exact ⟨j', by rw [replay, hi', Option.bind_some, hj'], hget⟩

/-- A log of one group meets no conflict where a key it first inserts is of that group or absent. -/
theorem replay_isSome_of_first {g : γ} {index : Dict κ ν} {l : List (LogEntry κ ν)}
    (hl : ∀ e ∈ l, ∀ v, e.value = some v → group v = g)
    (hi : ∀ k v w, first l k = some (some v) → Dict.get? index k = some w → group w = g) :
    ∃ j, replay group index l = some j := by
  induction l generalizing index with
  | nil => exact ⟨index, rfl⟩
  | cons e l ih =>
    have hstep : ∃ i, apply group index e = some i := by
      rw [apply]
      cases hv : e.value with
      | none => exact ⟨_, rfl⟩
      | some v =>
        dsimp only
        cases hw : Dict.get? index e.key with
        | none => exact ⟨_, rfl⟩
        | some w =>
          have hfirst : first (e :: l) e.key = some (some v) := by rw [first, if_pos rfl, hv]
          have hsame : group w = group v :=
            (hi e.key v w hfirst hw).trans (hl e List.mem_cons_self v hv).symm
          exact ⟨_, if_pos hsame⟩
    obtain ⟨i, hstep⟩ := hstep
    have hrest : ∀ k v w, first l k = some (some v) → Dict.get? i k = some w → group w = g := by
      intro k v w hf hw
      rw [get?_apply hstep] at hw
      split at hw
      · exact hl e List.mem_cons_self w hw
      next hk =>
        refine hi k v w ?_ hw
        rw [first, if_neg hk]
        exact hf
    obtain ⟨j, hj⟩ := ih (fun e' he' => hl e' (List.mem_cons_of_mem e he')) hrest
    exact ⟨j, by rw [replay, hstep, Option.bind_some, hj]⟩

/-- No conflict where the log and what it meets are of one group. -/
theorem replay_isSome {g : γ} {index : Dict κ ν} {l : List (LogEntry κ ν)}
    (hl : ∀ e ∈ l, ∀ v, e.value = some v → group v = g)
    (hi : ∀ e ∈ l, ∀ w, Dict.get? index e.key = some w → group w = g) :
    ∃ j, replay group index l = some j := by
  refine replay_isSome_of_first hl fun k v w hf hw => ?_
  obtain ⟨e, he, hk, -⟩ := exists_of_first hf
  rw [← hk] at hw
  exact hi e he w hw

/-- A conflict, where a key of another group is inserted before its tombstone. -/
theorem replay_conflict {index : Dict κ ν} {l : List (LogEntry κ ν)} {k : κ} {v w : ν}
    (hi : Dict.get? index k = some w) (hf : first l k = some (some v))
    (hne : group w ≠ group v) : replay group index l = none := by
  induction l generalizing index with
  | nil => cases hf
  | cons e l ih =>
    rw [first] at hf
    rw [replay]
    split at hf
    next hk =>
      have hnone : apply group index e = none := by
        rw [apply, Option.some.inj hf, hk]
        dsimp only
        rw [hi]
        exact if_neg hne
      rw [hnone, Option.bind_none]
    next hk =>
      cases hstep : apply group index e with
      | none => rfl
      | some i =>
        have hkeep : Dict.get? i k = some w := by rw [get?_apply hstep, if_neg hk, hi]
        exact ih hkeep hf

/-- A log of one group that is replayed over a replay of its beginning. -/
theorem replay_again (g : γ) {index i j : Dict κ ν} {l l' : List (LogEntry κ ν)}
    (hl : ∀ e ∈ l ++ l', ∀ v, e.value = some v → group v = g) (hi : replay group index l = some i)
    (hj : replay group index (l ++ l') = some j) :
    ∃ j', replay group i (l ++ l') = some j' ∧ ∀ k, Dict.get? j' k = Dict.get? j k := by
  have hgroup : ∀ k v w, first (l ++ l') k = some (some v) → Dict.get? i k = some w → group w = g := by
    intro k v w hf hw
    obtain ⟨e, he, -, hv⟩ := exists_of_first hf
    rw [get?_replay hi] at hw
    cases hx : last l k with
    | some x =>
      rw [hx] at hw
      obtain ⟨e', he', -, hv'⟩ := exists_of_last hx
      exact hl e' (List.mem_append_left l' he') w (hv'.trans hw)
    | none =>
      rw [hx] at hw
      by_contra hne
      have hconflict : group w ≠ group v := by
        rw [hl e he v hv]
        exact hne
      rw [replay_conflict hw hf hconflict] at hj
      cases hj
  obtain ⟨j', hj'⟩ := replay_isSome_of_first hl hgroup
  refine ⟨j', hj', fun k => ?_⟩
  rw [get?_replay hj', get?_replay hj, get?_replay hi, last_append]
  cases last l' k with
  | some x => rfl
  | none => cases last l k <;> rfl

/-- A conflict is met again. -/
theorem replay_again_conflict (g : γ) {index i : Dict κ ν} {l l' : List (LogEntry κ ν)}
    (hl : ∀ e ∈ l ++ l', ∀ v, e.value = some v → group v = g) (hi : replay group index l = some i)
    (hnone : replay group index (l ++ l') = none) : replay group i (l ++ l') = none := by
  by_contra hsome
  obtain ⟨j, hj⟩ := Option.ne_none_iff_exists'.mp hsome
  have hgroup : ∀ k v w, first (l ++ l') k = some (some v) → Dict.get? index k = some w →
      group w = g := by
    intro k v w hf hw
    obtain ⟨e, he, -, hv⟩ := exists_of_first hf
    by_contra hne
    have hconflict : group w ≠ group v := by
      rw [hl e he v hv]
      exact hne
    rw [first_append] at hf
    cases hx : first l k with
    | some x =>
      rw [hx] at hf
      rw [replay_conflict hw (hx.trans hf) hconflict] at hi
      cases hi
    | none =>
      have hkeep : Dict.get? i k = some w := by
        rw [get?_replay hi, last_none_of (first_none_iff.mp hx)]
        exact hw
      have hf' : first (l ++ l') k = some (some v) := by rw [first_append, hf]
      rw [replay_conflict hkeep hf' hconflict] at hj
      cases hj
  obtain ⟨j', hj'⟩ := replay_isSome_of_first hl hgroup
  rw [hnone] at hj'
  cases hj'

/-! ### The logs of several groups -/

/-- `log g` is what was written under group `g`, and `live` is the dictionary
the writers have: a key is live exactly where the last entry of its group's log
is a value, and no log starts with a tombstone of a key. -/
structure Logs (group : ν → γ) (gs : List γ) (log : γ → List (LogEntry κ ν)) (live : κ → Option ν) :
    Prop where
  nodup : gs.Nodup
  home : ∀ g ∈ gs, ∀ e ∈ log g, ∀ v, e.value = some v → group v = g
  opens : ∀ g ∈ gs, ∀ k, first (log g) k ≠ some none
  live_last : ∀ k v, live k = some v → group v ∈ gs ∧ last (log (group v)) k = some (some v)
  last_live : ∀ g ∈ gs, ∀ k v, last (log g) k = some (some v) → live k = some v

/-- No group behind the one a key is live in has an entry of that key. -/
def Clear (group : ν → γ) (gs : List γ) (log : γ → List (LogEntry κ ν)) (live : κ → Option ν) : Prop :=
  gs.Pairwise fun g g' => ∀ k v, live k = some v → group v = g → ∀ e ∈ log g', e.key ≠ k

variable {log : γ → List (LogEntry κ ν)} {live : κ → Option ν}

/-- Where the logs from `gs` on are still to come, with `index` rebuilt so far. -/
theorem replay_from {gs : List γ} (hclear : Clear group gs log live) (hnodup : gs.Nodup)
    (hhome : ∀ g ∈ gs, ∀ e ∈ log g, ∀ v, e.value = some v → group v = g)
    (hlast : ∀ k v, live k = some v → last (log (group v)) k = some (some v))
    (hlive : ∀ g ∈ gs, ∀ k v, last (log g) k = some (some v) → live k = some v)
    {index : Dict κ ν}
    (hi : ∀ k w, Dict.get? index k = some w → live k = some w ∧ ∀ g ∈ gs, ∀ e ∈ log g, e.key ≠ k)
    (hrest : ∀ k v, live k = some v → group v ∈ gs ∨ Dict.get? index k = some v) :
    ∃ j, replay group index (gs.flatMap log) = some j ∧ ∀ k, Dict.get? j k = live k := by
  induction gs generalizing index with
  | nil =>
    refine ⟨index, rfl, fun k => ?_⟩
    cases hl : live k with
    | some v =>
      rcases hrest k v hl with h | h
      · cases h
      · exact h
    | none =>
      cases hw : Dict.get? index k with
      | none => rfl
      | some w =>
        have hsome := (hi k w hw).1
        rw [hl] at hsome
        cases hsome
  | cons g gs ih =>
    rw [Clear, List.pairwise_cons] at hclear
    rw [List.nodup_cons] at hnodup
    have hfirst : ∀ e ∈ log g, ∀ w, Dict.get? index e.key = some w → group w = g := by
      intro e he w hw
      exact ((hi _ w hw).2 g List.mem_cons_self e he rfl).elim
    obtain ⟨i, hstep⟩ := replay_isSome (hhome g List.mem_cons_self) hfirst
    have hget (k : κ) := get?_replay hstep k
    have hnext : ∀ k w, Dict.get? i k = some w →
        live k = some w ∧ ∀ g' ∈ gs, ∀ e ∈ log g', e.key ≠ k := by
      intro k w hw
      rw [hget] at hw
      cases hl : last (log g) k with
      | none =>
        rw [hl] at hw
        obtain ⟨hlw, hno⟩ := hi k w hw
        exact ⟨hlw, fun g' hg' => hno g' (List.mem_cons_of_mem g hg')⟩
      | some x =>
        rw [hl] at hw
        have hx : x = some w := hw
        have hlw := hlive g List.mem_cons_self k w (hl.trans (congrArg some hx))
        obtain ⟨e, he, hek, hev⟩ := exists_of_last hl
        have hgroup := hhome g List.mem_cons_self e he w (hev.trans hx)
        exact ⟨hlw, fun g' hg' => hclear.1 g' hg' k w hlw hgroup⟩
    have hcover : ∀ k v, live k = some v → group v ∈ gs ∨ Dict.get? i k = some v := by
      intro k v hl
      rcases hrest k v hl with h | h
      · rcases List.mem_cons.mp h with h | h
        · right
          rw [hget, ← h, hlast k v hl]
          rfl
        · exact .inl h
      · right
        rw [hget, last_none_of ((hi k v h).2 g List.mem_cons_self)]
        exact h
    obtain ⟨j, hj, hjlive⟩ := ih hclear.2 hnodup.2 (fun g' hg' => hhome g' (List.mem_cons_of_mem g hg'))
      (fun g' hg' => hlive g' (List.mem_cons_of_mem g hg')) hnext hcover
    refine ⟨j, ?_, hjlive⟩
    rw [List.flatMap_cons, replay_append, hstep, Option.bind_some, hj]

theorem Logs.rebuild {gs : List γ} (h : Logs group gs log live) (hclear : Clear group gs log live) :
    ∃ j, replay group Dict.empty (gs.flatMap log) = some j ∧ ∀ k, Dict.get? j k = live k := by
  refine replay_from hclear h.nodup h.home (fun k v hl => (h.live_last k v hl).2) h.last_live ?_ ?_
  · intro k w hw
    rw [Dict.get?_empty] at hw
    cases hw
  · intro k v hl
    exact .inl (h.live_last k v hl).1

/-! ### Logs in order -/

/-- No group behind one whose log ends with a value of a key has an entry of that key. -/
def Ordered (gs : List γ) (log : γ → List (LogEntry κ ν)) : Prop :=
  gs.Pairwise fun g g' => ∀ k v, last (log g) k = some (some v) → ∀ e ∈ log g', e.key ≠ k

/-- A replay of the logs in the order of `gs` meets no conflict only where they are ordered. -/
theorem ordered_of_replay {gs : List γ} (hnodup : gs.Nodup)
    (hhome : ∀ g ∈ gs, ∀ e ∈ log g, ∀ v, e.value = some v → group v = g)
    (hopens : ∀ g ∈ gs, ∀ k, first (log g) k ≠ some none) {index j : Dict κ ν}
    (hj : replay group index (gs.flatMap log) = some j) : Ordered gs log := by
  induction gs generalizing index with
  | nil => exact List.Pairwise.nil
  | cons g gs ih =>
    rw [List.flatMap_cons, replay_append] at hj
    obtain ⟨i, hi, hj⟩ := Option.bind_eq_some_iff.mp hj
    rw [List.nodup_cons] at hnodup
    have htail := @ih hnodup.2 (fun g' hg' => hhome g' (List.mem_cons_of_mem g hg'))
      (fun g' hg' => hopens g' (List.mem_cons_of_mem g hg')) i hj
    refine List.pairwise_cons.mpr ⟨?_, htail⟩
    intro g' hg' k v hlast e he hek
    have hget : Dict.get? i k = some v := by
      rw [get?_replay hi, hlast]
      rfl
    obtain ⟨e₀, he₀, -, hv₀⟩ := exists_of_last hlast
    have hv : group v = g := hhome g List.mem_cons_self e₀ he₀ v hv₀
    -- the first entry of the key behind `g` is a value of another group
    have hsome : first (gs.flatMap log) k ≠ none := by
      intro hnone
      exact first_none_iff.mp hnone e (List.mem_flatMap.mpr ⟨g', hg', he⟩) hek
    obtain ⟨x, hx⟩ := Option.ne_none_iff_exists'.mp hsome
    obtain ⟨g'', hg'', hf⟩ := first_flatMap hx
    have hmem := List.mem_cons_of_mem g hg''
    cases x with
    | none => exact hopens g'' hmem k hf
    | some u =>
      have hu : group u = g'' := by
        obtain ⟨e', he', -, hv'⟩ := exists_of_first hf
        exact hhome g'' hmem e' he' u hv'
      have hne : group v ≠ group u := by
        rw [hu, hv]
        rintro rfl
        exact hnodup.1 hg''
      rw [replay_conflict hget hx hne] at hj
      cases hj

omit [DecidableEq γ] in
theorem exists_of_last_flatMap {gs : List γ} {k : κ} {x : Option ν}
    (h : last (gs.flatMap log) k = some x) : ∃ g ∈ gs, last (log g) k = some x := by
  induction gs with
  | nil => cases h
  | cons g gs ih =>
    rw [List.flatMap_cons, last_append, Option.or_eq_some_iff] at h
    rcases h with h | ⟨-, h⟩
    · obtain ⟨g', hg', hx⟩ := ih h
      exact ⟨g', List.mem_cons_of_mem g hg', hx⟩
    · exact ⟨g, List.mem_cons_self, h⟩

omit [DecidableEq γ] in
theorem Ordered.last_flatMap {gs : List γ} (h : Ordered gs log) {g : γ} (hg : g ∈ gs) {k : κ} {v : ν}
    (hlast : last (log g) k = some (some v)) : last (gs.flatMap log) k = some (some v) := by
  induction gs with
  | nil => cases hg
  | cons g' gs ih =>
    rw [Ordered, List.pairwise_cons] at h
    rw [List.flatMap_cons, last_append]
    rcases List.mem_cons.mp hg with rfl | hg
    · have hnone : last (gs.flatMap log) k = none := by
        refine last_none_of fun e he => ?_
        obtain ⟨g'', hg'', he⟩ := List.mem_flatMap.mp he
        exact h.1 g'' hg'' k v hlast e he
      rw [hnone, Option.none_or, hlast]
    · rw [ih h.2 hg, Option.some_or]

/-- What a key holds behind all the logs. -/
def ending (gs : List γ) (log : γ → List (LogEntry κ ν)) (k : κ) : Option ν :=
  (last (gs.flatMap log) k).join

omit [DecidableEq γ] in
theorem last_of_ending {gs : List γ}
    (hhome : ∀ g ∈ gs, ∀ e ∈ log g, ∀ v, e.value = some v → group v = g) {k : κ} {v : ν}
    (h : ending gs log k = some v) : group v ∈ gs ∧ last (log (group v)) k = some (some v) := by
  obtain ⟨g, hg, hlast⟩ := exists_of_last_flatMap (Option.join_eq_some_iff.mp h)
  obtain ⟨e, he, -, hv⟩ := exists_of_last hlast
  rw [hhome g hg e he v hv]
  exact ⟨hg, hlast⟩

omit [DecidableEq γ] in
theorem Ordered.ending_of_last {gs : List γ} (h : Ordered gs log) {g : γ} (hg : g ∈ gs) {k : κ} {v : ν}
    (hlast : last (log g) k = some (some v)) : ending gs log k = some v := by
  rw [ending, h.last_flatMap hg hlast]
  rfl

/-- A replay of the logs in the order of `gs` meets no conflict only where each
key is live in the last of its groups. -/
theorem Logs.clear_of_replay {gs : List γ} (h : Logs group gs log live) {index j : Dict κ ν}
    (hj : replay group index (gs.flatMap log) = some j) : Clear group gs log live := by
  refine (ordered_of_replay h.nodup h.home h.opens hj).imp fun {g g'} hno k v hk hg => hno k v ?_
  rw [← hg]
  exact (h.live_last k v hk).2

end Replay

end Jaiba.Lib
