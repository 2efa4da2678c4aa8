import Jaiba.Engine.Metrics
import Mathlib.Data.Finset.Basic

/-!
# Merged exposition

`merge_prometheus` concatenates the texts of the flows and keeps the first of
equal comment lines.  What comes out is a well formed exposition when there is
one flow, with one processor and one connection: the samples are not regrouped.
-/

namespace Jaiba.Server.Exposition

open Jaiba.Lib Jaiba.Engine.Metrics

variable {α : Type}

/-! ### The merge -/

def dropCarriage (line : List Char) : List Char :=
  if line.getLast? = some '\r' then line.dropLast else line

def linesFrom (line : List Char) : List Char → List (List Char)
  | [] => if line = [] then [] else [line]
  | c :: rest =>
    if c = '\n' then dropCarriage line :: linesFrom [] rest else linesFrom (line ++ [c]) rest

/-- `str::lines`. -/
def lines (text : List Char) : List (List Char) := linesFrom [] text

structure Merge where
  output : List Char
  seenMeta : List (List Char)

def isMeta (line : List Char) : Bool :=
  helpMark.isPrefixOf line || typeMark.isPrefixOf line

def mergeLine (st : Merge) (line : List Char) : Merge :=
  if isMeta line then
    if st.seenMeta.contains line then st
    else { output := st.output ++ (line ++ ['\n']), seenMeta := line :: st.seenMeta }
  else { st with output := st.output ++ (line ++ ['\n']) }

def mergePrometheus (bodies : List (List Char)) : List Char :=
  (bodies.foldl (fun st body => (lines body).foldl mergeLine st) ⟨[], []⟩).output

/-! ### Lines of a rendered text -/

/-- A line that is read back as it was written. -/
structure Clean (line : List Char) : Prop where
  unbroken : '\n' ∉ line
  last : line.getLast? ≠ some '\r'

theorem linesFrom_append {cs : List Char} (h : '\n' ∉ cs) (line rest : List Char) :
    linesFrom line (cs ++ '\n' :: rest) = dropCarriage (line ++ cs) :: linesFrom [] rest := by
  induction cs generalizing line with
  | nil => simp [linesFrom]
  | cons c cs ih =>
    have hc : c ≠ '\n' := fun hc => h (hc ▸ List.mem_cons_self)
    have hcs : '\n' ∉ cs := fun hcs => h (List.mem_cons_of_mem c hcs)
    rw [List.cons_append, linesFrom, if_neg hc, ih hcs, List.append_assoc, List.singleton_append]

theorem lines_append {line : List Char} (h : Clean line) (rest : List Char) :
    lines (line ++ ['\n'] ++ rest) = line :: lines rest := by
  rw [List.append_assoc, List.singleton_append, lines, linesFrom_append h.unbroken, List.nil_append,
    dropCarriage, if_neg h.last]
  rfl

theorem lines_render {ls : List Line} (h : ∀ l ∈ ls, Clean l.text) :
    lines (render ls) = ls.map Line.text := by
  induction ls with
  | nil => rfl
  | cons l ls ih =>
    rw [render, List.flatMap_cons, lines_append (h l List.mem_cons_self), List.map_cons]
    exact congrArg (l.text :: ·) (ih fun l' hl' => h l' (List.mem_cons_of_mem l hl'))

theorem Clean.append {before after : List Char} (hbefore : '\n' ∉ before) (hafter : '\n' ∉ after)
    (hlast : (' ' :: after).getLast? ≠ some '\r') : Clean (before ++ ' ' :: after) where
  unbroken h := by
    rcases List.mem_append.mp h with h | h
    · exact hbefore h
    · rcases List.mem_cons.mp h with h | h
      · exact absurd h (by decide)
      · exact hafter h
  last := by rwa [List.getLast?_append_cons]

theorem not_mem_of_plain {s : String} (h : Plain s) : '\n' ∉ s.toList := fun hs => (h _ hs).1 rfl

theorem getLast?_of_plain {s : String} (h : Plain s) :
    (' ' :: s.toList).getLast? ≠ some '\r' := by
  intro hlast
  rcases List.mem_cons.mp (List.mem_of_getLast? hlast) with hr | hr
  · exact absurd hr (by decide)
  · exact (h _ hr).2 rfl

theorem not_mem_replace {c d : Char} {cs : List Char} (hd : d ∉ cs) {value : List Char}
    (h : d = c ∨ d ∉ value) : d ∉ replace c cs value := by
  intro hmem
  obtain ⟨e, he, hin⟩ := List.mem_flatMap.mp hmem
  split_ifs at hin with hec
  · exact hd hin
  · cases List.mem_singleton.mp hin
    rcases h with rfl | h
    · exact hec rfl
    · exact h he

theorem not_mem_labelText (label : Label × String) : '\n' ∉ labelText label := by
  have hkey : '\n' ∉ label.1.text.toList := by
    cases label.1 <;> decide
  have hvalue : '\n' ∉ escapeLabel label.2 := not_mem_replace (by decide) (.inl rfl)
  simp [labelText, hkey, hvalue]

theorem not_mem_intercalate {texts : List (List Char)} (h : ∀ t ∈ texts, '\n' ∉ t) :
    '\n' ∉ [','].intercalate texts := by
  induction texts with
  | nil => exact List.not_mem_nil
  | cons t texts ih =>
    have ht := h t List.mem_cons_self
    have htexts := ih fun t' ht' => h t' (List.mem_cons_of_mem t ht')
    cases texts with
    | nil => rwa [List.intercalate_singleton]
    | cons t' texts =>
      rw [List.intercalate_cons_cons]
      simp [ht, htexts]

theorem not_mem_labelsText (labels : List (Label × String)) : '\n' ∉ labelsText labels := by
  cases labels with
  | nil => exact List.not_mem_nil
  | cons label labels =>
    have hin : '\n' ∉ [','].intercalate ((label :: labels).map labelText) := by
      refine not_mem_intercalate fun t ht => ?_
      obtain ⟨l, -, rfl⟩ := List.mem_map.mp ht
      exact not_mem_labelText l
    show '\n' ∉ '{' :: ([','].intercalate ((label :: labels).map labelText) ++ ['}'])
    simpa using hin

theorem clean_text (l : Line) : Clean l.text := by
  cases l with
  | help m =>
    refine Clean.append ?_ (not_mem_of_plain (plain_help m)) (getLast?_of_plain (plain_help m))
    rw [List.mem_append, not_or]
    exact ⟨not_mem_of_plain (plain_ofList rfl), not_mem_of_plain (word_name m).plain⟩
  | type m =>
    refine Clean.append ?_ (not_mem_of_plain (plain_kind _)) (getLast?_of_plain (plain_kind _))
    rw [List.mem_append, not_or]
    exact ⟨not_mem_of_plain (plain_ofList rfl), not_mem_of_plain (word_name m).plain⟩
  | sample m labels value =>
    refine Clean.append ?_ (not_mem_of_plain value.plain) (getLast?_of_plain value.plain)
    rw [List.mem_append, not_or]
    exact ⟨not_mem_of_plain (word_name m).plain, not_mem_labelsText labels⟩

/-! ### The lines that are kept -/

def isSample : Line → Bool
  | .sample .. => true
  | _ => false

theorem helpMark_eq : helpMark = '#' :: [' ', 'H', 'E', 'L', 'P', ' '] := String.toList_ofList

theorem typeMark_eq : typeMark = '#' :: [' ', 'T', 'Y', 'P', 'E', ' '] := String.toList_ofList

theorem isPrefixOf_append (a b : List Char) : a.isPrefixOf (a ++ b) = true :=
  List.isPrefixOf_iff_prefix.mpr (List.prefix_append a b)

theorem isMeta_text (l : Line) : isMeta l.text = !isSample l := by
  cases l with
  | help m =>
    rw [isMeta, Line.text, List.append_assoc, isPrefixOf_append, Bool.true_or]
    rfl
  | type m =>
    rw [isMeta, Line.text, List.append_assoc, isPrefixOf_append, Bool.or_true]
    rfl
  | sample m labels value =>
    obtain ⟨rest, hrest⟩ := (word_name m).starts
    rw [isMeta, Line.text, hrest, helpMark_eq, typeMark_eq]
    rfl

/-- The lines of which the merge keeps the text. -/
def kept (seen : List (List Char)) : List Line → List Line
  | [] => []
  | l :: ls =>
    if isSample l then l :: kept seen ls
    else if seen.contains l.text then kept seen ls
    else l :: kept (l.text :: seen) ls

def merged (flows : List FlowSummary) : List Line := kept [] (flows.flatMap body)

theorem foldl_mergeLine (ls : List Line) (st : Merge) :
    ((ls.map Line.text).foldl mergeLine st).output = st.output ++ render (kept st.seenMeta ls) := by
  induction ls generalizing st with
  | nil => simp [kept, render]
  | cons l ls ih =>
    rw [List.map_cons, List.foldl_cons, ih, kept, mergeLine, isMeta_text]
    cases hl : isSample l with
    | true => simp [render]
    | false =>
      by_cases hseen : l.text ∈ st.seenMeta
      · simp [hseen]
      · simp [hseen, render]

theorem foldl_bodies (flows : List FlowSummary) (st : Merge) :
    (flows.map prometheus).foldl (fun st body => (lines body).foldl mergeLine st) st =
      ((flows.flatMap body).map Line.text).foldl mergeLine st := by
  induction flows generalizing st with
  | nil => rfl
  | cons f flows ih =>
    rw [List.map_cons, List.foldl_cons, ih, prometheus, lines_render fun l _ => clean_text l,
      List.flatMap_cons, List.map_append, List.foldl_append]

/-- The merged text is the text of the merged lines. -/
theorem mergePrometheus_eq (flows : List FlowSummary) :
    mergePrometheus (flows.map prometheus) = render (merged flows) := by
  rw [mergePrometheus, foldl_bodies, foldl_mergeLine]
  rfl

/-! ### Well formed expositions -/

inductive Role
  | help | type | sample
  deriving DecidableEq

/-- What a line is about. -/
def tag : Line → Role × Metric
  | .help m => (.help, m)
  | .type m => (.type, m)
  | .sample m _ _ => (.sample, m)

def nameOf? (role : Role) (t : Role × Metric) : Option String :=
  if t.1 = role then some t.2.name else none

/-- The names of which the lines have a line of this role, in order. -/
def names (role : Role) (ls : List Line) : List String := (ls.map tag).filterMap (nameOf? role)

/-- The name and the set of labels of a sample. -/
def series? : Line → Option (String × Finset (Label × String))
  | .sample m labels _ => some (m.name, labels.toFinset)
  | _ => none

/-- The samples of a name stand together, after the one line `# HELP` and the
one line `# TYPE` of the name. -/
structure Grouped (name : String) (ls before group after : List Line) : Prop where
  split : ls = before ++ (group ++ after)
  together : ∀ l ∈ group, nameOf? .sample (tag l) = some name
  elsewhere : name ∉ names .sample before ∧ name ∉ names .sample after
  help : name ∈ names .help before ∧ (names .help ls).count name = 1
  type : name ∈ names .type before ∧ (names .type ls).count name = 1

structure WellFormed (ls : List Line) : Prop where
  grouped : ∀ name ∈ names .sample ls, ∃ before group after, Grouped name ls before group after
  distinct : (ls.filterMap series?).Nodup

theorem nameOf?_eq_some {role : Role} {t : Role × Metric} {name : String} :
    nameOf? role t = some name ↔ t.1 = role ∧ t.2.name = name := by
  unfold nameOf?
  split_ifs with h <;> simp [h]

theorem mem_names {role : Role} {m : Metric} {ls : List Line} :
    m.name ∈ names role ls ↔ (role, m) ∈ ls.map tag := by
  rw [names, List.mem_filterMap]
  constructor
  · rintro ⟨t, ht, hname⟩
    obtain ⟨hrole, hm⟩ := nameOf?_eq_some.mp hname
    rwa [← hrole, ← Metric.name_injective hm]
  · intro h
    exact ⟨_, h, nameOf?_eq_some.mpr ⟨rfl, rfl⟩⟩

theorem nodup_names {role : Role} {ls : List Line} (h : (ls.map tag).Nodup) :
    (names role ls).Nodup := by
  refine h.filterMap fun t t' name ht ht' => ?_
  obtain ⟨hrole, hname⟩ := nameOf?_eq_some.mp ht
  obtain ⟨hrole', hname'⟩ := nameOf?_eq_some.mp ht'
  exact Prod.ext (hrole.trans hrole'.symm) (Metric.name_injective (hname.trans hname'.symm))

theorem map_series? (l : Line) : (series? l).map Prod.fst = nameOf? .sample (tag l) := by
  cases l <;> rfl

theorem map_series (ls : List Line) : (ls.filterMap series?).map Prod.fst = names .sample ls := by
  rw [names, List.map_filterMap, List.filterMap_map]
  exact List.filterMap_congr fun l _ => map_series? l

/-! ### Texts without repetition -/

/-- Each sample comes after the comment lines of its family. -/
def introduced (seen : List (Role × Metric)) : List (Role × Metric) → Bool
  | [] => true
  | t :: tags =>
    (t.1 != .sample || decide ((.help, t.2) ∈ seen) && decide ((.type, t.2) ∈ seen)) &&
      introduced (t :: seen) tags

theorem introduced_split {seen tags before after : List (Role × Metric)} {m : Metric}
    (h : introduced seen tags = true) (hsplit : tags = before ++ (.sample, m) :: after) :
    ((.help, m) ∈ seen ∨ (.help, m) ∈ before) ∧ ((.type, m) ∈ seen ∨ (.type, m) ∈ before) := by
  subst hsplit
  induction before generalizing seen with
  | nil =>
    simp only [List.nil_append, introduced, bne_self_eq_false, Bool.false_or, Bool.and_eq_true,
      decide_eq_true_eq] at h
    exact ⟨.inl h.1.1, .inl h.1.2⟩
  | cons t before ih =>
    rw [List.cons_append, introduced] at h
    have hrest := ih (Bool.and_eq_true_iff.mp h).2
    simp only [List.mem_cons] at hrest ⊢
    tauto

theorem wellFormed_of_tags {ls : List Line} (hn : (ls.map tag).Nodup)
    (hi : introduced [] (ls.map tag) = true) : WellFormed ls := by
  refine ⟨fun name hname => ?_, List.Nodup.of_map Prod.fst (map_series ls ▸ nodup_names hn)⟩
  obtain ⟨t, ht, hrole⟩ := List.mem_filterMap.mp hname
  obtain ⟨l, hl, rfl⟩ := List.mem_map.mp ht
  obtain ⟨hsample, hm⟩ := nameOf?_eq_some.mp hrole
  obtain ⟨before, after, hsplit⟩ := List.append_of_mem hl
  have htag : tag l = (.sample, (tag l).2) := Prod.ext hsample rfl
  have htags : ls.map tag = before.map tag ++ (.sample, (tag l).2) :: after.map tag := by
    rw [hsplit, List.map_append, List.map_cons, htag]
  obtain ⟨hhelp, htype⟩ := introduced_split hi htags
  have hsub : before.Sublist ls := hsplit ▸ List.sublist_append_left _ _
  have hone {role : Role} (h : (role, (tag l).2) ∈ before.map tag) :
      name ∈ names role before ∧ (names role ls).count name = 1 := by
    subst hm
    exact ⟨mem_names.mpr h, List.count_eq_one_of_mem (nodup_names hn)
      (mem_names.mpr ((hsub.map tag).subset h))⟩
  have hnot : (Role.sample, (tag l).2) ∉ before.map tag ++ after.map tag :=
    (List.nodup_cons.mp (List.nodup_middle.mp (htags ▸ hn))).1
  rw [List.mem_append, not_or] at hnot
  refine ⟨before, [l], after, ?_⟩
  constructor
  · exact hsplit
  · intro x hx
    cases List.mem_singleton.mp hx
    exact hrole
  · subst hm
    exact ⟨fun h => hnot.1 (mem_names.mp h), fun h => hnot.2 (mem_names.mp h)⟩
  · exact hone (hhelp.resolve_left List.not_mem_nil)
  · exact hone (htype.resolve_left List.not_mem_nil)

/-! ### Texts whose samples come back -/

theorem not_sublist_of_apart {a b : α} {before group after : List α} (hb : b ≠ a)
    (hbefore : a ∉ before) (hafter : a ∉ after) (hgroup : ∀ x ∈ group, x = a) :
    ¬ [a, b, a].Sublist (before ++ (group ++ after)) := by
  intro h
  obtain ⟨l₁, l₂, heq, h₁, h₂⟩ := List.sublist_append_iff.mp h
  cases l₁ with
  | cons x l₁ =>
    have hx : a = x := (List.cons.inj heq).1
    exact hbefore (h₁.subset (hx ▸ List.mem_cons_self))
  | nil =>
    cases heq
    obtain ⟨m₁, m₂, hsplit, h₃, h₄⟩ := List.sublist_append_iff.mp h₂
    have hlast : m₂ = [] := by
      refine List.eq_nil_iff_forall_not_mem.mpr fun x hx => hafter (h₄.subset ?_)
      have hget : ([a, b, a] : List α).getLast? = m₂.getLast? := by
        rw [hsplit, List.getLast?_append_of_ne_nil _ (List.ne_nil_of_mem hx)]
      exact List.mem_of_getLast? hget.symm
    rw [hlast, List.append_nil] at hsplit
    exact hb (hgroup b (h₃.subset (hsplit ▸ List.mem_cons_of_mem _ List.mem_cons_self)))

theorem WellFormed.not_sublist {ls : List Line} (h : WellFormed ls) {a b : String} (hb : b ≠ a) :
    ¬ [a, b, a].Sublist (names .sample ls) := by
  intro hsub
  obtain ⟨before, group, after, hg⟩ := h.grouped a (hsub.subset List.mem_cons_self)
  have hnames : names .sample ls =
      names .sample before ++ (names .sample group ++ names .sample after) := by
    simp only [names, hg.split, List.map_append, List.filterMap_append]
  refine not_sublist_of_apart hb hg.elsewhere.1 hg.elsewhere.2 (fun x hx => ?_) (hnames ▸ hsub)
  obtain ⟨t, ht, hx⟩ := List.mem_filterMap.mp hx
  obtain ⟨l, hl, rfl⟩ := List.mem_map.mp ht
  exact Option.some.inj (hx.symm.trans (hg.together l hl))

/-! ### The lines of the flows -/

theorem filterMap_kept {f : Line → Option α} (hf : ∀ l, isSample l = false → f l = none)
    (seen : List (List Char)) (ls : List Line) : (kept seen ls).filterMap f = ls.filterMap f := by
  induction ls generalizing seen with
  | nil => rfl
  | cons l ls ih =>
    rw [kept]
    split_ifs with hsample hseen
    · simp only [List.filterMap_cons, ih]
    · rw [ih, List.filterMap_cons_none (hf l (Bool.eq_false_iff.mpr hsample))]
    · rw [List.filterMap_cons_none (hf l (Bool.eq_false_iff.mpr hsample)), ih,
        List.filterMap_cons_none (hf l (Bool.eq_false_iff.mpr hsample))]

theorem eq_of_blank {a b x y : List Char} (ha : ' ' ∉ a) (hb : ' ' ∉ b)
    (h : a ++ ' ' :: x = b ++ ' ' :: y) : a = b := by
  induction a generalizing b with
  | nil =>
    cases b with
    | nil => rfl
    | cons c b => exact absurd (List.cons.inj h).1 fun hc => hb (hc ▸ List.mem_cons_self)
  | cons c a ih =>
    cases b with
    | nil => exact absurd (List.cons.inj h).1 fun hc => ha (hc ▸ List.mem_cons_self)
    | cons d b =>
      obtain ⟨hc, hrest⟩ := List.cons.inj h
      rw [hc, ih (fun hm => ha (List.mem_cons_of_mem c hm)) (fun hm => hb (List.mem_cons_of_mem d hm))
        hrest]

theorem name_of_text {m m' : Metric} {x y : List Char}
    (h : m.name.toList ++ ' ' :: x = m'.name.toList ++ ' ' :: y) : m = m' := by
  have hlist := eq_of_blank (fun hc => (word_name m).unbroken _ hc rfl)
    (fun hc => (word_name m').unbroken _ hc rfl) h
  exact Metric.name_injective (String.toList_inj.mp hlist)

/-- Two comment lines with one text are about the same. -/
theorem tag_of_text {l l' : Line} (hl : isSample l = false) (hl' : isSample l' = false)
    (h : l.text = l'.text) : tag l = tag l' := by
  cases l with
  | help m =>
    cases l' with
    | help m' =>
      simp only [Line.text, List.append_assoc, List.append_cancel_left_eq] at h
      rw [name_of_text h]
    | type m' =>
      simp [Line.text, helpMark_eq, typeMark_eq] at h
    | sample m' labels value => cases hl'
  | type m =>
    cases l' with
    | help m' =>
      simp [Line.text, helpMark_eq, typeMark_eq] at h
    | type m' =>
      simp only [Line.text, List.append_assoc, List.append_cancel_left_eq] at h
      rw [name_of_text h]
    | sample m' labels value => cases hl'
  | sample m labels value => cases hl

theorem kept_of_nodup {seen : List (List Char)} {ls : List Line} (hn : (ls.map tag).Nodup)
    (hseen : ∀ l ∈ ls, isSample l = false → l.text ∉ seen) : kept seen ls = ls := by
  induction ls generalizing seen with
  | nil => rfl
  | cons l ls ih =>
    obtain ⟨hl, hls⟩ := List.nodup_cons.mp hn
    have htail : ∀ x ∈ ls, isSample x = false → x.text ∉ seen :=
      fun x hx => hseen x (List.mem_cons_of_mem l hx)
    rw [kept]
    split_ifs with hsample hin
    · rw [ih hls htail]
    · exact absurd (List.contains_iff_mem.mp hin)
        (hseen l List.mem_cons_self (Bool.eq_false_iff.mpr hsample))
    · rw [ih hls fun x hx hs hmem => ?_]
      rcases List.mem_cons.mp hmem with heq | hmem
      · have htag := tag_of_text hs (Bool.eq_false_iff.mpr hsample) heq
        exact hl (htag ▸ List.mem_map_of_mem hx)
      · exact htail x hx hs hmem

/-! ### One flow -/

def headerTags (m : Metric) : List (Role × Metric) := [(.help, m), (.type, m)]

def blockTags (m : Metric) : List (Role × Metric) := headerTags m ++ [(.sample, m)]

def processorTags : List (Role × Metric) :=
  (ProcessorMetric.all.map fun t => (.sample, .processor t)) ++
    FlowProcessorMetric.all.map fun t => (.sample, .flowProcessor t)

def queueTags : List (Role × Metric) := QueueMetric.all.map fun t => (.sample, .queue t)

/-- What the lines of a flow are about, in order. -/
def bodyTags (memory : Bool) (processors queues : ℕ) : List (Role × Metric) :=
  (Total.all.flatMap fun t => blockTags (.total t)) ++
    (ProcessorMetric.all.flatMap fun t => headerTags (.processor t)) ++
    (if memory then MemoryTotal.all.flatMap fun t => blockTags (.memory t) else []) ++
    (FlowProcessorMetric.all.flatMap fun t => headerTags (.flowProcessor t)) ++
    (List.replicate processors processorTags).flatten ++
    (QueueMetric.all.flatMap fun t => headerTags (.queue t)) ++
    (List.replicate queues queueTags).flatten ++
    FlowMetric.all.flatMap fun t => blockTags (.flow t)

theorem map_tag_flatMap {f : α → List Line} {tags : List (Role × Metric)}
    (h : ∀ a, (f a).map tag = tags) (es : List α) :
    (es.flatMap f).map tag = (List.replicate es.length tags).flatten := by
  induction es with
  | nil => rfl
  | cons e es ih =>
    rw [List.flatMap_cons, List.map_append, h, ih, List.length_cons, List.replicate_succ,
      List.flatten_cons]

theorem map_tag_body (s : FlowSummary) : (body s).map tag =
    bodyTags s.domainMemory.isSome s.processors.entries.length s.connectionQueues.entries.length := by
  have hprocessors : (s.processors.entries.flatMap (processorSamples s.flowId)).map tag =
      (List.replicate s.processors.entries.length processorTags).flatten :=
    map_tag_flatMap (f := processorSamples s.flowId) (fun _ => rfl) _
  have hqueues : (s.connectionQueues.entries.flatMap (queueSamples s.flowId)).map tag =
      (List.replicate s.connectionQueues.entries.length queueTags).flatten :=
    map_tag_flatMap (f := queueSamples s.flowId) (fun _ => rfl) _
  simp only [body, bodyTags, List.map_append, hprocessors, hqueues]
  cases s.domainMemory <;> rfl


/-- Where a tag stands in the text of a flow. -/
def position : Role × Metric → ℕ
  | (role, .total t) => 3 * t.ctorIdx + role.ctorIdx
  | (.sample, .processor t) => 400 + t.ctorIdx
  | (role, .processor t) => 100 + 3 * t.ctorIdx + role.ctorIdx
  | (role, .memory t) => 200 + 3 * t.ctorIdx + role.ctorIdx
  | (.sample, .flowProcessor t) => 500 + t.ctorIdx
  | (role, .flowProcessor t) => 300 + 3 * t.ctorIdx + role.ctorIdx
  | (.sample, .queue t) => 700 + t.ctorIdx
  | (role, .queue t) => 600 + 3 * t.ctorIdx + role.ctorIdx
  | (role, .flow t) => 800 + 3 * t.ctorIdx + role.ctorIdx

theorem nodup_bodyTags (memory : Bool) {processors queues : ℕ} (hp : processors ≤ 1)
    (hq : queues ≤ 1) : (bodyTags memory processors queues).Nodup := by
  have hchain : ((bodyTags memory processors queues).map position).IsChain (· < ·) := by
    obtain rfl | rfl : processors = 0 ∨ processors = 1 := by omega
    all_goals
      obtain rfl | rfl : queues = 0 ∨ queues = 1 := by omega
      all_goals cases memory <;> decide +kernel
  exact List.Nodup.of_map position ((List.isChain_iff_pairwise.mp hchain).imp fun h => h.ne)

theorem introduced_bodyTags (memory : Bool) {processors queues : ℕ} (hp : processors ≤ 1)
    (hq : queues ≤ 1) : introduced [] (bodyTags memory processors queues) = true := by
  obtain rfl | rfl : processors = 0 ∨ processors = 1 := by omega
  all_goals
    obtain rfl | rfl : queues = 0 ∨ queues = 1 := by omega
    all_goals cases memory <;> decide +kernel

/-- At most one processor and at most one connection. -/
structure Single (s : FlowSummary) : Prop where
  processors : s.processors.entries.length ≤ 1
  queues : s.connectionQueues.entries.length ≤ 1

theorem merged_singleton {s : FlowSummary} (h : Single s) : merged [s] = body s := by
  have hn : ((body s).map tag).Nodup := by
    rw [map_tag_body]
    exact nodup_bodyTags _ h.processors h.queues
  rw [merged, List.flatMap_singleton]
  exact kept_of_nodup hn fun l _ _ => List.not_mem_nil

theorem wellFormed_body {s : FlowSummary} (h : Single s) : WellFormed (body s) := by
  apply wellFormed_of_tags
  · rw [map_tag_body]
    exact nodup_bodyTags _ h.processors h.queues
  · rw [map_tag_body]
    exact introduced_bodyTags _ h.processors h.queues

/-! ### Several flows, processors or connections -/

/-- Every sample of every flow is there once, in order. -/
theorem samples_merged (flows : List FlowSummary) :
    (merged flows).filter isSample = flows.flatMap fun s => (body s).filter isSample := by
  have hguard := filterMap_kept (f := Option.guard fun l => isSample l)
    (fun l hl => by simp [Option.guard, hl]) [] (flows.flatMap body)
  rw [List.filterMap_eq_filter] at hguard
  rw [merged, hguard, List.filter_flatMap]

theorem series_merged (flows : List FlowSummary) :
    (merged flows).filterMap series? = (flows.flatMap body).filterMap series? := by
  refine filterMap_kept (fun l hl => ?_) [] _
  cases l with
  | help m => rfl
  | type m => rfl
  | sample m labels value => cases hl

theorem names_merged (flows : List FlowSummary) :
    names .sample (merged flows) = names .sample (flows.flatMap body) := by
  rw [← map_series, ← map_series, series_merged]

theorem series_body (s : FlowSummary) : ∃ rest,
    (body s).filterMap series? = ((Metric.total .processed).name, ∅) :: rest := ⟨_, rfl⟩

/-- Two flows both have the families without labels. -/
theorem length_le_one {flows : List FlowSummary} (h : ((merged flows).filterMap series?).Nodup) :
    flows.length ≤ 1 := by
  rcases flows with _ | ⟨s, _ | ⟨t, flows⟩⟩
  · exact Nat.zero_le 1
  · exact le_rfl
  · obtain ⟨x, hx⟩ := series_body s
    obtain ⟨y, hy⟩ := series_body t
    rw [series_merged, List.flatMap_cons, List.flatMap_cons, List.filterMap_append,
      List.filterMap_append, hx, hy] at h
    refine absurd (List.mem_append_right x ?_) (List.nodup_cons.mp h).1
    exact List.mem_append_left _ List.mem_cons_self

theorem names_sublist {ls ls' : List Line} (h : ls.Sublist ls') (role : Role) :
    (names role ls).Sublist (names role ls') := (h.map tag).filterMap _

theorem body_sublist {flows : List FlowSummary} {s : FlowSummary} (h : s ∈ flows) :
    (body s).Sublist (flows.flatMap body) :=
  List.sublist_flatten_of_mem (List.mem_map_of_mem h)

/-- The samples of two entries of one kind alternate. -/
theorem length_le_one_of_samples {ls : List Line} {f : α → List Line} {es : List α} {m n : Metric}
    {rest : List (Role × Metric)} (hf : ∀ e, (f e).map tag = (.sample, m) :: (.sample, n) :: rest)
    (h : (es.flatMap f).Sublist ls) (hw : ¬ [m.name, n.name, m.name].Sublist (names .sample ls)) :
    es.length ≤ 1 := by
  rcases es with _ | ⟨e, _ | ⟨e', es⟩⟩
  · exact Nat.zero_le 1
  · exact le_rfl
  · refine absurd (List.Sublist.trans ?_ (names_sublist h .sample)) hw
    simp only [names, List.flatMap_cons, List.map_append, List.filterMap_append, hf]
    refine List.Sublist.cons_cons _ (List.Sublist.cons_cons _ ?_)
    exact List.singleton_sublist.mpr (List.mem_append_right _ List.mem_cons_self)

theorem processors_sublist (s : FlowSummary) :
    (s.processors.entries.flatMap (processorSamples s.flowId)).Sublist (body s) := by
  unfold body
  exact (List.sublist_append_right _ _).trans ((List.sublist_append_left _ _).trans
    ((List.sublist_append_left _ _).trans (List.sublist_append_left _ _)))

theorem queues_sublist (s : FlowSummary) :
    (s.connectionQueues.entries.flatMap (queueSamples s.flowId)).Sublist (body s) := by
  unfold body
  exact (List.sublist_append_right _ _).trans (List.sublist_append_left _ _)

theorem single_of_wellFormed {flows : List FlowSummary} (h : WellFormed (merged flows))
    {s : FlowSummary} (hs : s ∈ flows) : Single s := by
  have hapart {m n : Metric} (hne : n ≠ m) :
      ¬ [m.name, n.name, m.name].Sublist (names .sample (flows.flatMap body)) := by
    rw [← names_merged]
    exact h.not_sublist fun hname => hne (Metric.name_injective hname)
  have hprocessors : (.processor .queueDepth : Metric) ≠ .processor .activeTasks := by decide
  have hqueues : (.queue .bytes : Metric) ≠ .queue .packets := by decide
  have htags (e : String × ProcessorSummary) : (processorSamples s.flowId e).map tag =
      (.sample, .processor .activeTasks) :: (.sample, .processor .queueDepth) ::
        processorTags.drop 2 := rfl
  constructor
  · exact length_le_one_of_samples htags ((processors_sublist s).trans (body_sublist hs))
      (hapart hprocessors)
  · exact length_le_one_of_samples (f := queueSamples s.flowId) (fun e => rfl)
      ((queues_sublist s).trans (body_sublist hs)) (hapart hqueues)

theorem wellFormed_of_single {flows : List FlowSummary} (hlen : flows.length ≤ 1)
    (h : ∀ s ∈ flows, Single s) : WellFormed (merged flows) := by
  rcases flows with _ | ⟨s, _ | ⟨t, flows⟩⟩
  · exact wellFormed_of_tags List.nodup_nil rfl
  · have hs := h s List.mem_cons_self
    rw [merged_singleton hs]
    exact wellFormed_body hs
  · exact absurd hlen (by simp)

/-- The merged text has every sample of every flow once; it is well formed
exactly when there is at most one flow, with at most one processor and one
connection. -/
theorem wellFormed_mergePrometheus_iff (flows : List FlowSummary) :
    mergePrometheus (flows.map prometheus) = render (merged flows) ∧
      (merged flows).filter isSample = flows.flatMap (fun s => (body s).filter isSample) ∧
      (WellFormed (merged flows) ↔ flows.length ≤ 1 ∧ ∀ s ∈ flows,
        s.processors.entries.length ≤ 1 ∧ s.connectionQueues.entries.length ≤ 1) := by
  refine ⟨mergePrometheus_eq flows, samples_merged flows, ?_, ?_⟩
  · intro h
    refine ⟨length_le_one h.distinct, fun s hs => ?_⟩
    have hsingle := single_of_wellFormed h hs
    exact ⟨hsingle.processors, hsingle.queues⟩
  · rintro ⟨hlen, h⟩
    exact wellFormed_of_single hlen fun s hs => ⟨(h s hs).1, (h s hs).2⟩

def idleProcessor : ProcessorSummary where
  activeTasks := 0
  queueDepth := 0
  completed := 0
  records := 0
  failed := 0
  executionDurationMs := 0
  executionDurationSeconds := .ofNat 0
  saturationRatio := .ofNat 0

/-- A flow that has just started, with these processors. -/
def idleFlow (flowId : String) (processors : List String) : FlowSummary where
  flowId := flowId
  flowStatus := 2
  flowLastSuccessTimestamp := 0
  totals _ := 0
  processors := processors.foldl (fun d id => d.insert id idleProcessor) OrderedDict.empty
  connectionQueues := OrderedDict.empty
  domainMemory := none

/-- Two flows without processors, and one flow with two processors: neither is a
well formed exposition. -/
theorem not_wellFormed_merged :
    ¬ WellFormed (merged [idleFlow "orders" [], idleFlow "invoices" []]) ∧
      ¬ WellFormed (merged [idleFlow "orders" ["read", "write"]]) := by
  constructor
  · intro h
    exact absurd (length_le_one h.distinct) (by decide)
  · intro h
    exact absurd (single_of_wellFormed h List.mem_cons_self).processors (by decide)

end Jaiba.Server.Exposition
