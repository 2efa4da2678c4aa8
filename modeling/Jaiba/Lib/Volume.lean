import Mathlib.Order.Monotone.Basic
import Jaiba.Lib.Bytes
import Jaiba.Lib.Replay

/-!
# Files that replace one another

A directory gives numbers of files to names; a file has bytes, and the disk may
not have them all before the file is synchronised. The disk keeps the changes
of the directory in their order, so a loss of power brings back an earlier
directory, and a file that was not synchronised comes back with any bytes.

Some names are published: a file is written under another name, synchronised
and then renamed. What the published names lead to is a map with a history,
and a loss of power takes the map back to an earlier point of it.
-/

namespace Jaiba.Lib

structure Inode where
  bytes : Bytes
  synced : Bool

/-- `past` holds the earlier directories, the latest first. -/
structure Volume (ν : Type) where
  inodes : List Inode
  names : Dict ν ℕ
  past : List (Dict ν ℕ)

namespace Volume

variable {ν : Type} [DecidableEq ν]

def empty : Volume ν := ⟨[], Dict.empty, []⟩

/-- What a loss of power may bring back. -/
def directories (v : Volume ν) : List (Dict ν ℕ) := v.names :: v.past

def file? (v : Volume ν) (d : Dict ν ℕ) (a : ν) : Option Inode :=
  (Dict.get? d a).bind fun n => v.inodes[n]?

def inode? (v : Volume ν) (a : ν) : Option Inode := v.file? v.names a

/-- A file is made or emptied, and then written. -/
def write (v : Volume ν) (a : ν) (bytes : Bytes) : Volume ν :=
  match Dict.get? v.names a with
  | some n => { v with inodes := v.inodes.set n ⟨bytes, false⟩ }
  | none =>
    { inodes := v.inodes ++ [⟨bytes, false⟩]
      names := Dict.insert v.names a v.inodes.length
      past := v.directories }

def sync (v : Volume ν) (a : ν) : Volume ν :=
  match Dict.get? v.names a with
  | some n => { v with inodes := v.inodes.modify n fun f => { f with synced := true } }
  | none => v

/-- `none` where there is no file. -/
def rename (v : Volume ν) (a b : ν) : Option (Volume ν) :=
  (Dict.get? v.names a).map fun n =>
    { v with names := Dict.insert (Dict.erase v.names a) b n, past := v.directories }

def unlink (v : Volume ν) (a : ν) : Option (Volume ν) :=
  (Dict.get? v.names a).map fun _ =>
    { v with names := Dict.erase v.names a, past := v.directories }

/-- The directory of `back` changes ago, and `remains` in the files that were
not synchronised. -/
def losePower (v : Volume ν) (back : ℕ) (remains : ℕ → Bytes) : Option (Volume ν) :=
  v.directories[back]?.map fun d =>
    { inodes := v.inodes.mapIdx fun n f => if f.synced then f else ⟨remains n, true⟩
      names := d
      past := v.directories.drop (back + 1) }

/-! ### Published names -/

variable (published : ν → Prop)

/-- A file that has an unpublished name now was under no published name before. -/
def Apart (later earlier : Dict ν ℕ) : Prop :=
  ∀ a b n, ¬ published a → published b → Dict.get? later a = some n → Dict.get? earlier b ≠ some n

structure Sound (v : Volume ν) : Prop where
  bound : ∀ d ∈ v.directories, ∀ a n, Dict.get? d a = some n → n < v.inodes.length
  single : ∀ d ∈ v.directories, ∀ a b n, Dict.get? d a = some n → Dict.get? d b = some n → a = b
  synced : ∀ d ∈ v.directories, ∀ a f, published a → v.file? d a = some f → f.synced = true
  apart : v.directories.Pairwise (Apart published)

/-- The published names lead to what the log says last of them. -/
def Represents (v : Volume ν) (d : Dict ν ℕ) (log : List (LogEntry ν Bytes)) : Prop :=
  ∀ a, published a → (v.file? d a).map Inode.bytes = (Replay.last log a).join

/-- Every directory that may come back stands for an earlier point of the log. -/
structure Archive (v : Volume ν) (log : List (LogEntry ν Bytes)) : Prop extends Sound published v where
  history : ∃ cut : ℕ → ℕ, cut 0 = log.length ∧ Antitone cut ∧
    ∀ k d, v.directories[k]? = some d → Represents published v d (log.take (cut k))

variable {published}

theorem Archive.empty : Archive published (empty : Volume ν) [] where
  bound := List.forall_mem_singleton.mpr nofun
  single := List.forall_mem_singleton.mpr nofun
  synced := List.forall_mem_singleton.mpr nofun
  apart := List.pairwise_singleton _ _
  history := by
    refine ⟨fun _ => 0, rfl, antitone_const, fun k d hd a _ => ?_⟩
    have hmem := List.mem_of_getElem? hd
    rw [directories, Volume.empty, List.mem_singleton] at hmem
    rw [hmem]
    rfl

theorem Archive.represents {v : Volume ν} {log : List (LogEntry ν Bytes)} (h : Archive published v log) :
    Represents published v v.names log := by
  obtain ⟨cut, hzero, -, hcut⟩ := h.history
  have hnow := hcut 0 v.names rfl
  rwa [hzero, List.take_length] at hnow

/-- What a published name leads to. -/
theorem Archive.entry {v : Volume ν} {log : List (LogEntry ν Bytes)} (h : Archive published v log) {a : ν}
    (ha : published a) : (v.inode? a).map Inode.bytes = (Replay.last log a).join :=
  h.represents a ha

/-- A change that leaves the directories and the published files alone. -/
theorem Archive.still {v w : Volume ν} {log : List (LogEntry ν Bytes)} (h : Archive published v log)
    (hdirs : w.directories = v.directories) (hlen : v.inodes.length ≤ w.inodes.length)
    (hfile : ∀ d ∈ v.directories, ∀ a, published a → w.file? d a = v.file? d a) : Archive published w log where
  bound d hd a n hn := (h.bound d (hdirs ▸ hd) a n hn).trans_le hlen
  single := hdirs ▸ h.single
  synced d hd a f ha hf := h.synced d (hdirs ▸ hd) a f ha (hfile d (hdirs ▸ hd) a ha ▸ hf)
  apart := hdirs ▸ h.apart
  history := by
    obtain ⟨cut, hzero, hmono, hcut⟩ := h.history
    refine ⟨cut, hzero, hmono, fun k d hd a ha => ?_⟩
    rw [hdirs] at hd
    rw [hfile d (List.mem_of_getElem? hd) a ha]
    exact hcut k d hd a ha

/-- A change that makes a new directory and leaves the files of the earlier ones alone. -/
theorem Archive.push {v w : Volume ν} {log : List (LogEntry ν Bytes)} (more : List (LogEntry ν Bytes))
    (h : Archive published v log) (hpast : w.past = v.directories)
    (hlen : v.inodes.length ≤ w.inodes.length)
    (hfile : ∀ d ∈ v.directories, ∀ a, published a → w.file? d a = v.file? d a)
    (hbound : ∀ a n, Dict.get? w.names a = some n → n < w.inodes.length)
    (hsingle : ∀ a b n, Dict.get? w.names a = some n → Dict.get? w.names b = some n → a = b)
    (hsynced : ∀ a f, published a → w.inode? a = some f → f.synced = true)
    (hapart : ∀ d ∈ v.directories, Apart published w.names d)
    (hrepresents : Represents published w w.names (log ++ more)) : Archive published w (log ++ more) where
  bound := by
    rw [directories, hpast]
    exact List.forall_mem_cons.mpr ⟨hbound, fun d hd a n hn => (h.bound d hd a n hn).trans_le hlen⟩
  single := by
    rw [directories, hpast]
    exact List.forall_mem_cons.mpr ⟨hsingle, h.single⟩
  synced := by
    rw [directories, hpast]
    exact List.forall_mem_cons.mpr
      ⟨hsynced, fun d hd a f ha hf => h.synced d hd a f ha (hfile d hd a ha ▸ hf)⟩
  apart := by
    rw [directories, hpast]
    exact List.pairwise_cons.mpr ⟨hapart, h.apart⟩
  history := by
    obtain ⟨cut, hzero, hmono, hcut⟩ := h.history
    have hle : ∀ k, cut k ≤ log.length := fun k => hzero ▸ hmono (Nat.zero_le k)
    refine ⟨fun k => k.casesOn (log ++ more).length cut, rfl, antitone_nat_of_succ_le fun k => ?_, ?_⟩
    · cases k with
      | zero =>
        change cut 0 ≤ (log ++ more).length
        rw [List.length_append]
        have hlog := hle 0
        omega
      | succ k => exact hmono (Nat.le_succ k)
    · intro k d hd a ha
      rw [directories, hpast] at hd
      cases k with
      | zero =>
        cases Option.some.inj hd
        change (w.file? w.names a).map Inode.bytes =
          (Replay.last ((log ++ more).take (log ++ more).length) a).join
        rw [List.take_length]
        exact hrepresents a ha
      | succ k =>
        rw [List.getElem?_cons_succ] at hd
        change (w.file? d a).map Inode.bytes = (Replay.last ((log ++ more).take (cut k)) a).join
        rw [List.take_append_of_le_length (hle k), hfile d (List.mem_of_getElem? hd) a ha]
        exact hcut k d hd a ha

theorem Sound.apart_now {v : Volume ν} (h : Sound published v) {d : Dict ν ℕ} (hd : d ∈ v.directories) :
    Apart published v.names d := by
  rcases List.mem_cons.mp hd with rfl | hd
  · intro a b n ha hb hn hm
    exact ha (h.single v.names List.mem_cons_self a b n hn hm ▸ hb)
  · exact (List.pairwise_cons.mp h.apart).1 d hd

theorem Sound.single_now {v : Volume ν} (h : Sound published v) {a b : ν} {n : ℕ}
    (ha : Dict.get? v.names a = some n) (hb : Dict.get? v.names b = some n) : a = b :=
  h.single v.names List.mem_cons_self a b n ha hb

theorem Sound.bound_now {v : Volume ν} (h : Sound published v) {a : ν} {n : ℕ}
    (ha : Dict.get? v.names a = some n) : n < v.inodes.length :=
  h.bound v.names List.mem_cons_self a n ha

/-- A file keeps what it has when another number is written. -/
theorem file?_congr {v w : Volume ν} {d : Dict ν ℕ} {a : ν}
    (h : ∀ n, Dict.get? d a = some n → w.inodes[n]? = v.inodes[n]?) : w.file? d a = v.file? d a := by
  unfold file?
  cases hn : Dict.get? d a with
  | none => rfl
  | some n => exact h n hn

/-- What is done to the bytes of an unpublished file is not seen under published names. -/
theorem Archive.unseen {v w : Volume ν} {log : List (LogEntry ν Bytes)} (h : Archive published v log) {a : ν}
    (ha : ¬ published a) {n : ℕ} (hn : Dict.get? v.names a = some n) (hdirs : w.directories = v.directories)
    (hlen : w.inodes.length = v.inodes.length) (hother : ∀ m, m ≠ n → w.inodes[m]? = v.inodes[m]?) :
    Archive published w log :=
  h.still hdirs hlen.ge fun _ hd b hb => file?_congr fun m hm => hother m fun hmn =>
    h.toSound.apart_now hd a b n ha hb hn (hmn ▸ hm)

theorem Archive.write {v : Volume ν} {log : List (LogEntry ν Bytes)} (h : Archive published v log) {a : ν}
    (ha : ¬ published a) (bytes : Bytes) : Archive published (v.write a bytes) log := by
  unfold Volume.write
  cases hn : Dict.get? v.names a with
  | some n =>
    exact h.unseen ha hn rfl (List.length_set ..) fun m hm => List.getElem?_set_ne hm.symm
  | none =>
    have hold : ∀ d ∈ v.directories, ∀ b m, Dict.get? d b = some m →
        (v.inodes ++ [(⟨bytes, false⟩ : Inode)])[m]? = v.inodes[m]? :=
      fun _ hd b m hm => List.getElem?_append_left (h.bound _ hd b m hm)
    have hlook : ∀ b, b ≠ a → Dict.get? (Dict.insert v.names a v.inodes.length) b = Dict.get? v.names b :=
      fun b hb => by rw [Dict.get?_insert, if_neg hb]
    have hnow : ∀ b, published b →
        ({ inodes := v.inodes ++ [⟨bytes, false⟩], names := Dict.insert v.names a v.inodes.length,
           past := v.directories } : Volume ν).inode? b = v.inode? b := fun b hb => by
      have hba : b ≠ a := fun hba => ha (hba ▸ hb)
      unfold inode? file?
      rw [hlook b hba]
      cases hm : Dict.get? v.names b with
      | none => rfl
      | some m => exact hold v.names List.mem_cons_self b m hm
    rw [← List.append_nil log]
    refine h.push [] rfl ?_ ?_ ?_ ?_ ?_ ?_ ?_
    · exact (List.prefix_append _ _).length_le
    · exact fun d hd b _ => file?_congr fun m hm => hold d hd b m hm
    · intro b m hm
      rw [List.length_append, List.length_singleton]
      by_cases hb : b = a
      · rw [hb, Dict.get?_insert, if_pos rfl] at hm
        cases Option.some.inj hm
        exact Nat.lt_succ_self _
      · rw [hlook b hb] at hm
        exact Nat.lt_succ_of_lt (h.toSound.bound_now hm)
    · intro b c m hb hc
      by_cases hba : b = a <;> by_cases hca : c = a
      · rw [hba, hca]
      · rw [hba, Dict.get?_insert, if_pos rfl] at hb
        rw [hlook c hca, ← hb] at hc
        exact absurd (h.toSound.bound_now hc) (lt_irrefl _)
      · rw [hca, Dict.get?_insert, if_pos rfl] at hc
        rw [hlook b hba, ← hc] at hb
        exact absurd (h.toSound.bound_now hb) (lt_irrefl _)
      · rw [hlook b hba] at hb
        rw [hlook c hca] at hc
        exact h.toSound.single_now hb hc
    · intro b f hb hf
      rw [hnow b hb] at hf
      exact h.synced v.names List.mem_cons_self b f hb hf
    · intro d hd b c m hb hc hm
      by_cases hba : b = a
      · rw [hba, Dict.get?_insert, if_pos rfl] at hm
        cases Option.some.inj hm
        exact fun hcm => absurd (h.bound d hd c _ hcm) (lt_irrefl _)
      · rw [hlook b hba] at hm
        exact h.toSound.apart_now hd b c m hb hc hm
    · intro b hb
      change (inode? _ b).map Inode.bytes = _
      rw [hnow b hb, List.append_nil]
      exact h.entry hb

theorem Archive.sync {v : Volume ν} {log : List (LogEntry ν Bytes)} (h : Archive published v log) {a : ν}
    (ha : ¬ published a) : Archive published (v.sync a) log := by
  unfold Volume.sync
  cases hn : Dict.get? v.names a with
  | some n =>
    exact h.unseen ha hn rfl (List.length_modify ..) fun m hm => List.getElem?_modify_ne _ _ hm.symm
  | none => exact h

/-- Renaming a synchronised file to a published name is one entry of the log. -/
theorem Archive.rename {v w : Volume ν} {log : List (LogEntry ν Bytes)} (h : Archive published v log) {a b : ν}
    {f : Inode} (ha : ¬ published a) (hb : published b) (hf : v.inode? a = some f) (hsynced : f.synced = true)
    (hw : v.rename a b = some w) : Archive published w (log ++ [⟨b, some f.bytes⟩]) := by
  obtain ⟨n, hn, rfl⟩ := Option.map_eq_some_iff.mp hw
  have hfile : v.inodes[n]? = some f := by
    rw [inode?, file?, hn] at hf
    exact hf
  have hself : Dict.get? (Dict.insert (Dict.erase v.names a) b n) b = some n := by
    rw [Dict.get?_insert, if_pos rfl]
  have hold : ∀ {c m}, c ≠ b → Dict.get? (Dict.insert (Dict.erase v.names a) b n) c = some m →
      c ≠ a ∧ Dict.get? v.names c = some m := by
    intro c m hc hm
    rw [Dict.get?_insert, if_neg hc, Dict.get?_erase] at hm
    split at hm
    · cases hm
    next hca => exact ⟨hca, hm⟩
  have hlook : ∀ c, c ≠ b → c ≠ a → Dict.get? (Dict.insert (Dict.erase v.names a) b n) c = Dict.get? v.names c :=
    fun c hc hca => by rw [Dict.get?_insert, if_neg hc, Dict.get?_erase, if_neg hca]
  refine h.push _ rfl le_rfl (fun _ _ _ _ => rfl) ?_ ?_ ?_ ?_ ?_
  · intro c m hm
    by_cases hc : c = b
    · rw [hc, hself] at hm
      cases Option.some.inj hm
      exact h.toSound.bound_now hn
    · exact h.toSound.bound_now (hold hc hm).2
  · intro c e m hcm hem
    by_cases hc : c = b <;> by_cases he : e = b
    · rw [hc, he]
    · rw [hc, hself] at hcm
      cases Option.some.inj hcm
      obtain ⟨hea, hem⟩ := hold he hem
      exact absurd (h.toSound.single_now hem hn) hea
    · rw [he, hself] at hem
      cases Option.some.inj hem
      obtain ⟨hca, hcm⟩ := hold hc hcm
      exact absurd (h.toSound.single_now hcm hn) hca
    · exact h.toSound.single_now (hold hc hcm).2 (hold he hem).2
  · intro c g hc hg
    by_cases hcb : c = b
    · rw [inode?, file?, hcb, hself, Option.bind_some, hfile] at hg
      cases Option.some.inj hg
      exact hsynced
    · rw [inode?, file?, hlook c hcb fun hca => ha (hca ▸ hc)] at hg
      exact h.synced v.names List.mem_cons_self c g hc hg
  · intro d hd c e m hc he hm
    have hcb : c ≠ b := fun hcb => hc (hcb ▸ hb)
    exact h.toSound.apart_now hd c e m hc he (hold hcb hm).2
  · intro c hc
    rw [Replay.last_append, Replay.last, Replay.last, Option.none_or]
    by_cases hcb : c = b
    · rw [if_pos hcb.symm, hcb, file?, hself, Option.bind_some, hfile]
      rfl
    · rw [if_neg fun hbc => hcb hbc.symm, Option.none_or, file?, hlook c hcb fun hca => ha (hca ▸ hc)]
      exact h.entry hc

theorem Archive.unlink {v w : Volume ν} {log : List (LogEntry ν Bytes)} (h : Archive published v log) {b : ν}
    (hw : v.unlink b = some w) : Archive published w (log ++ [⟨b, none⟩]) := by
  obtain ⟨n, hn, rfl⟩ := Option.map_eq_some_iff.mp hw
  have hold : ∀ {c m}, Dict.get? (Dict.erase v.names b) c = some m → Dict.get? v.names c = some m := by
    intro c m hm
    rw [Dict.get?_erase] at hm
    split at hm
    · cases hm
    · exact hm
  refine h.push _ rfl le_rfl (fun _ _ _ _ => rfl) ?_ ?_ ?_ ?_ ?_
  · exact fun c m hm => h.toSound.bound_now (hold hm)
  · exact fun c e m hc he => h.toSound.single_now (hold hc) (hold he)
  · intro c g hc hg
    rw [inode?, file?, Dict.get?_erase] at hg
    split at hg
    · cases hg
    · exact h.synced v.names List.mem_cons_self c g hc hg
  · exact fun d hd c e m hc he hm => h.toSound.apart_now hd c e m hc he (hold hm)
  · intro c hc
    rw [Replay.last_append, Replay.last, Replay.last, Option.none_or, file?, Dict.get?_erase]
    by_cases hcb : c = b
    · rw [if_pos hcb, if_pos hcb.symm]
      rfl
    · rw [if_neg hcb, if_neg fun hbc => hcb hbc.symm, Option.none_or]
      exact h.entry hc

/-- A loss of power takes the log back. -/
theorem Archive.losePower {v w : Volume ν} {log : List (LogEntry ν Bytes)} (h : Archive published v log)
    {back : ℕ} {remains : ℕ → Bytes} (hw : v.losePower back remains = some w) :
    ∃ n ≤ log.length, Archive published w (log.take n) := by
  obtain ⟨d, hd, rfl⟩ := Option.map_eq_some_iff.mp hw
  obtain ⟨cut, hzero, hmono, hcut⟩ := h.history
  have hle : ∀ k, cut k ≤ log.length := fun k => hzero ▸ hmono (Nat.zero_le k)
  have hdirs : d :: v.directories.drop (back + 1) = v.directories.drop back := by
    obtain ⟨hlt, rfl⟩ := List.getElem?_eq_some_iff.mp hd
    exact (List.drop_eq_getElem_cons hlt).symm
  have hsub : ∀ {e}, e ∈ d :: v.directories.drop (back + 1) → e ∈ v.directories :=
    fun he => List.mem_of_mem_drop (hdirs ▸ he)
  have hlen : (v.inodes.mapIdx fun n f => if f.synced then f else ⟨remains n, true⟩).length = v.inodes.length :=
    List.length_mapIdx
  have hfile : ∀ e ∈ v.directories, ∀ a, published a →
      ({ inodes := v.inodes.mapIdx fun n f => if f.synced then f else ⟨remains n, true⟩
         names := d, past := v.directories.drop (back + 1) } : Volume ν).file? e a = v.file? e a := by
    intro e he a ha
    refine file?_congr fun n hn => ?_
    rw [List.getElem?_mapIdx]
    cases hf : v.inodes[n]? with
    | none => rfl
    | some f =>
      have hs := h.synced e he a f ha (by rw [file?, hn]; exact hf)
      rw [Option.map_some, if_pos hs]
  refine ⟨cut back, hle back, ⟨?_, ?_, ?_, ?_⟩, fun k => cut (back + k), ?_, ?_, ?_⟩
  · exact fun e he a n hn => (h.bound e (hsub he) a n hn).trans_eq hlen.symm
  · exact fun e he => h.single e (hsub he)
  · exact fun e he a f ha hf => h.synced e (hsub he) a f ha (hfile e (hsub he) a ha ▸ hf)
  · change (d :: v.directories.drop (back + 1)).Pairwise _
    rw [hdirs]
    exact h.apart.sublist (List.drop_sublist back _)
  · rw [List.length_take, Nat.min_eq_left (hle back)]
    rfl
  · exact fun j k hjk => hmono (Nat.add_le_add_left hjk back)
  · intro k e he a ha
    have hek : v.directories[back + k]? = some e := by
      rw [← List.getElem?_drop, ← hdirs]
      exact he
    rw [hfile e (List.mem_of_getElem? hek) a ha, List.take_take,
      Nat.min_eq_left (hmono (Nat.le_add_right back k))]
    exact hcut (back + k) e hek a ha

/-! ### What a change does to single files -/

theorem inode?_write (v : Volume ν) (a : ν) (bytes : Bytes) (hbound : ∀ n, Dict.get? v.names a = some n →
    n < v.inodes.length) : (v.write a bytes).inode? a = some ⟨bytes, false⟩ := by
  unfold Volume.write
  cases hn : Dict.get? v.names a with
  | some n =>
    dsimp only
    rw [inode?, file?, hn, Option.bind_some, List.getElem?_set_self (hbound n hn)]
  | none =>
    dsimp only
    rw [inode?, file?, Dict.get?_insert, if_pos rfl, Option.bind_some, List.getElem?_concat_length]

theorem Sound.inode?_write_ne {v : Volume ν} (h : Sound published v) {a b : ν} (hab : b ≠ a) (bytes : Bytes) :
    (v.write a bytes).inode? b = v.inode? b := by
  unfold Volume.write
  cases hn : Dict.get? v.names a with
  | some n =>
    have hother : ∀ m, Dict.get? v.names b = some m → n ≠ m := fun m hm hnm => hab (h.single_now hm (hnm ▸ hn))
    exact @file?_congr _ _ _ _ v.names _ fun m hm => List.getElem?_set_ne (hother m hm)
  | none =>
    unfold inode? file?
    dsimp only
    rw [Dict.get?_insert, if_neg hab]
    cases hm : Dict.get? v.names b with
    | none => rfl
    | some m => exact List.getElem?_append_left (h.bound_now hm)

theorem inode?_sync {v : Volume ν} {a : ν} {f : Inode} (hf : v.inode? a = some f) :
    (v.sync a).inode? a = some { f with synced := true } := by
  obtain ⟨n, hn, hfile⟩ := Option.bind_eq_some_iff.mp hf
  unfold Volume.sync
  rw [hn]
  dsimp only
  rw [inode?, file?, hn, Option.bind_some, List.getElem?_modify_eq, hfile]
  rfl

theorem Sound.inode?_sync_ne {v : Volume ν} (h : Sound published v) {a b : ν} (hab : b ≠ a) :
    (v.sync a).inode? b = v.inode? b := by
  unfold Volume.sync
  cases hn : Dict.get? v.names a with
  | some n =>
    have hother : ∀ m, Dict.get? v.names b = some m → n ≠ m := fun m hm hnm => hab (h.single_now hm (hnm ▸ hn))
    exact @file?_congr _ _ _ _ v.names _ fun m hm => List.getElem?_modify_ne _ _ (hother m hm)
  | none => rfl

theorem inode?_rename_ne {v w : Volume ν} {a b c : ν} (hw : v.rename a b = some w) (ha : c ≠ a) (hb : c ≠ b) :
    w.inode? c = v.inode? c := by
  obtain ⟨n, -, rfl⟩ := Option.map_eq_some_iff.mp hw
  unfold inode? file?
  rw [Dict.get?_insert, if_neg hb, Dict.get?_erase, if_neg ha]

theorem inode?_unlink_ne {v w : Volume ν} {b c : ν} (hw : v.unlink b = some w) (hb : c ≠ b) :
    w.inode? c = v.inode? c := by
  obtain ⟨n, -, rfl⟩ := Option.map_eq_some_iff.mp hw
  unfold inode? file?
  rw [Dict.get?_erase, if_neg hb]

end Volume

end Jaiba.Lib
