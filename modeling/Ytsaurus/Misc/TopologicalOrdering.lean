/-
# Incremental topological ordering

`TIncrementalTopologicalOrdering` of `core/misc/topological_ordering-inl.h` keeps a graph and
rebuilds the ordering of its vertices whenever a call adds a vertex or an edge. `Rebuild` is Kahn's
algorithm: it counts the edges into every vertex, and takes vertices with no edges left from a queue
(`Extracting`).

Hash maps are association lists and hash sets are lists. The order in which a loop goes through one
of them is not determined by its contents, so every call brings its own `IterationOrder`, and the
results hold for all of them. In-degrees, `int`s in the source, are integers.
-/
import Ytsaurus.Lib.Result

namespace Ytsaurus.Misc

open List Relation

variable {V : Type} [DecidableEq V]

/-! ### The class -/

/-- `THashMap<TVertexDescriptor, THashSet<TVertexDescriptor>>`. -/
abbrev EdgeMap (V : Type) := AList fun _ : V => List V

/-- `THashMap<TVertexDescriptor, int>`. -/
abbrev DegreeMap (V : Type) := AList fun _ : V => ℤ

/-- The orders in which the loops of one call go through the keys of the maps and through the sets.
-/
structure IterationOrder (V : Type) where
  sources : List V → List V
  sources_perm : ∀ keys, (sources keys).Perm keys
  targets : V → List V → List V
  targets_perm : ∀ v set, (targets v set).Perm set
  degrees : List V → List V
  degrees_perm : ∀ keys, (degrees keys).Perm keys

structure IncrementalTopologicalOrdering (V : Type) where
  topologicalOrdering : List V := []
  outgoingEdges : EdgeMap V := ∅

/-- What `OutgoingEdges_[vertex]` refers to: an empty set if there was no entry. -/
def targetsOf (edges : EdgeMap V) (vertex : V) : List V := (edges.lookup vertex).getD []

/-- `OutgoingEdges_[vertex]` makes an entry. -/
def touch (edges : EdgeMap V) (vertex : V) : EdgeMap V :=
  edges.insert vertex (targetsOf edges vertex)

/-- `inDegree[vertex]`, without the entry that it makes. -/
def degreeOf (inDegree : DegreeMap V) (vertex : V) : ℤ := (inDegree.lookup vertex).getD 0

/-- `inDegree[vertex] += amount`. -/
def bump (amount : ℤ) (inDegree : DegreeMap V) (vertex : V) : DegreeMap V :=
  inDegree.insert vertex (degreeOf inDegree vertex + amount)

/-- The loop of `Rebuild` that counts in-degrees. -/
def countInDegrees (order : IterationOrder V) (edges : EdgeMap V) :
    List V → DegreeMap V → DegreeMap V
  | [], inDegree => inDegree
  | source :: sources, inDegree => countInDegrees order edges sources
      ((order.targets source (targetsOf edges source)).foldl (bump 1) (bump 0 inDegree source))

/-- The loop of `Rebuild` over the vertices after the one that was just taken. -/
def releaseTargets : List V → DegreeMap V → List V → DegreeMap V × List V
  | [], inDegree, queue => (inDegree, queue)
  | next :: targets, inDegree, queue =>
    let inDegree := bump (-1) inDegree next
    releaseTargets targets inDegree (if degreeOf inDegree next = 0 then queue ++ [next] else queue)

/-- The `while` loop of `Rebuild`; it takes every vertex at most once, so the fuel is their number.
-/
def extractSources (order : IterationOrder V) :
    ℕ → EdgeMap V → DegreeMap V → List V → List V → Result (EdgeMap V × DegreeMap V × List V)
  | _, edges, inDegree, [], ordering => .ok (edges, inDegree, ordering)
  | 0, _, _, _ :: _, _ => .error .fuel
  | fuel + 1, edges, inDegree, vertex :: queue, ordering => do
    ytVerify (inDegree.lookup vertex = some 0)
    let (inDegree, queue) :=
      releaseTargets (order.targets vertex (targetsOf edges vertex)) (inDegree.erase vertex) queue
    extractSources order fuel (touch edges vertex) inDegree queue (ordering ++ [vertex])

def rebuild (order : IterationOrder V) (edges : EdgeMap V) :
    Result (IncrementalTopologicalOrdering V) := do
  let inDegree := countInDegrees order edges (order.sources edges.keys) ∅
  let queue := (order.degrees inDegree.keys).filter fun vertex => degreeOf inDegree vertex = 0
  let (edges, inDegree, ordering) ← extractSources order inDegree.keys.length edges
    inDegree queue []
  ytVerify (inDegree.keys = [])
  return ⟨ordering, edges⟩

inductive OrderingCall (V : Type)
  | addVertex (vertex : V)
  | addEdge (source target : V)

/-- `AddVertex` and `AddEdge`. -/
def IncrementalTopologicalOrdering.apply (graph : IncrementalTopologicalOrdering V)
    (order : IterationOrder V) : OrderingCall V → Result (IncrementalTopologicalOrdering V)
  | .addVertex vertex =>
    if vertex ∈ graph.outgoingEdges then .ok graph else rebuild order (touch graph.outgoingEdges vertex)
  | .addEdge source target =>
    if target ∈ targetsOf graph.outgoingEdges source then .ok graph
    else rebuild order (graph.outgoingEdges.insert source
      (target :: targetsOf graph.outgoingEdges source))

def runCalls (calls : List (OrderingCall V × IterationOrder V)) :
    Result (IncrementalTopologicalOrdering V) :=
  calls.foldlM (fun graph call => graph.apply call.2 call.1) {}

/-! ### The tables -/

section Tables

variable {edges : EdgeMap V} {deg : DegreeMap V} {u v w : V}

theorem targetsOf_insert (targets : List V) :
    targetsOf (edges.insert w targets) v = if v = w then targets else targetsOf edges v := by
  unfold targetsOf
  split_ifs with h
  · rw [h, AList.lookup_insert, Option.getD_some]
  · rw [AList.lookup_insert_ne h]

theorem targetsOf_touch : targetsOf (touch edges w) v = targetsOf edges v := by
  rw [touch, targetsOf_insert]
  split_ifs with h
  · rw [h]
  · rfl

theorem mem_of_mem_targetsOf (h : v ∈ targetsOf edges u) : u ∈ edges := by
  by_contra hu
  simp [targetsOf, AList.lookup_eq_none.mpr hu] at h

theorem lookup_eq_degreeOf (h : v ∈ deg) : deg.lookup v = some (degreeOf deg v) := by
  obtain ⟨d, hd⟩ := Option.isSome_iff_exists.mp (AList.lookup_isSome.mpr h)
  rw [degreeOf, hd, Option.getD_some]

theorem degreeOf_bump (amount : ℤ) :
    degreeOf (bump amount deg w) v = degreeOf deg v + if v = w then amount else 0 := by
  unfold bump
  split_ifs with h
  · rw [h, degreeOf, AList.lookup_insert, Option.getD_some]
  · rw [degreeOf, AList.lookup_insert_ne h, add_zero, degreeOf]

theorem foldl_bump (amount : ℤ) : ∀ {targets : List V} {deg : DegreeMap V}, targets.Nodup → degreeOf
      (targets.foldl (bump amount) deg) v = degreeOf deg v + (if v ∈ targets then amount else 0) ∧
      (v ∈ targets.foldl (bump amount) deg ↔ v ∈ deg ∨ v ∈ targets)
  | [], _, _ => by simp
  | w :: targets, deg, h => by
    obtain ⟨hw, ht⟩ := nodup_cons.mp h
    obtain ⟨hdegree, hmem⟩ := foldl_bump amount ht
    refine ⟨hdegree.trans ?_, hmem.trans ?_⟩
    · rw [degreeOf_bump, add_assoc]
      congr 1
      by_cases hv : v = w
      · simp [hv, hw]
      · simp [hv]
    · rw [bump, AList.mem_insert, mem_cons, or_assoc, or_left_comm]

/-- The targets whose last edge was counted off join the queue. -/
theorem releaseTargets_eq : ∀ {targets : List V} {deg : DegreeMap V} {queue : List V},
    targets.Nodup → releaseTargets targets deg queue = (targets.foldl (bump (-1)) deg,
      queue ++ targets.filter fun t => degreeOf deg t = 1)
  | [], _, _, _ => by simp [releaseTargets]
  | w :: targets, deg, queue, h => by
    obtain ⟨hw, ht⟩ := nodup_cons.mp h
    have hrest : ∀ t ∈ targets, degreeOf (bump (-1) deg w) t = degreeOf deg t := fun t h => by
      rw [degreeOf_bump, if_neg (ne_of_mem_of_not_mem h hw), add_zero]
    have hzero : degreeOf (bump (-1) deg w) w = 0 ↔ degreeOf deg w = 1 := by
      rw [degreeOf_bump, if_pos rfl]
      omega
    rw [releaseTargets, releaseTargets_eq ht, foldl_cons, filter_congr fun t h => by rw [hrest t h]]
    by_cases hone : degreeOf deg w = 1
    · simp [hzero, hone]
    · simp [hzero, hone]

end Tables

/-! ### The graph of the calls -/

def EdgeOf (calls : List (OrderingCall V)) (u v : V) : Prop := .addEdge u v ∈ calls

def Mentioned (calls : List (OrderingCall V)) (v : V) : Prop :=
  .addVertex v ∈ calls ∨ ∃ u, EdgeOf calls v u ∨ EdgeOf calls u v

def Acyclic (edge : V → V → Prop) : Prop := ∀ v, ¬TransGen edge v v

omit [DecidableEq V] in
/-- Among finitely many vertices of an acyclic graph one has no edge from the others. -/
theorem exists_source {edge : V → V → Prop} (h : Acyclic edge) (s : Finset V) (hs : s.Nonempty) :
    ∃ v ∈ s, ∀ u ∈ s, ¬edge u v := by
  have : IsStrictOrder V (TransGen edge) := { irrefl := h, trans := fun _ _ _ => TransGen.trans }
  have hwf := Set.wellFoundedOn_iff.mp (s.finite_toSet.wellFoundedOn (r := TransGen edge))
  obtain ⟨v, hv, hmin⟩ := hwf.has_min (s : Set V) hs
  exact ⟨v, hv, fun u hu he => hmin u hu ⟨.single he, hu, hv⟩⟩

/-- The table holds the graph of the calls. -/
structure Holds (calls : List (OrderingCall V)) (edges : EdgeMap V) : Prop where
  distinct : ∀ v, (targetsOf edges v).Nodup
  edge : ∀ u v, v ∈ targetsOf edges u ↔ EdgeOf calls u v
  mentioned : ∀ v, (v ∈ edges ∨ ∃ u, EdgeOf calls u v) ↔ Mentioned calls v

/-- The vertices are listed once, sources before targets. -/
structure Ordered (calls : List (OrderingCall V)) (ordering : List V) : Prop where
  nodup : ordering.Nodup
  listed : ∀ v, v ∈ ordering ↔ Mentioned calls v
  before : ∀ u v, EdgeOf calls u v → ordering.idxOf u < ordering.idxOf v

section Rebuild

variable {calls : List (OrderingCall V)} {edges : EdgeMap V} {inDegree deg : DegreeMap V}
  {queue ordering : List V}
  {vertex : V}

theorem Holds.touch (h : Holds calls edges) {w : V} (hw : Mentioned calls w) :
    Holds calls (touch edges w) := by
  refine ⟨fun v => ?_, fun u v => ?_, fun v => ?_⟩
  · rw [targetsOf_touch]
    exact h.distinct v
  · rw [targetsOf_touch, h.edge]
  · rw [Misc.touch, AList.mem_insert, or_assoc, h.mentioned]
    exact or_iff_right_of_imp fun he => he ▸ hw

/-- The vertices before `v` that are not in the ordering yet. -/
def pending (edges : EdgeMap V) (ordering : List V) (v : V) : Finset V :=
  edges.keys.toFinset.filter fun u => u ∉ ordering ∧ v ∈ targetsOf edges u

theorem mem_pending {u v : V} : u ∈ pending edges ordering v ↔ u ∉ ordering ∧
    v ∈ targetsOf edges u := by
  simp only [pending, Finset.mem_filter, mem_toFinset, and_iff_right_iff_imp]
  exact fun h => AList.mem_keys.mp (mem_of_mem_targetsOf h.2)

/-- Taking a vertex settles one edge into each of its targets. -/
theorem card_pending (hnew : vertex ∉ ordering) (v : V) : ((pending edges ordering v).card : ℤ) =
      (pending (touch edges vertex) (ordering ++ [vertex]) v).card + if v ∈ targetsOf edges vertex
        then 1 else 0 := by
  have herase : pending (touch edges vertex) (ordering ++ [vertex]) v =
      (pending edges ordering v).erase vertex := by
    ext u
    rw [mem_pending, targetsOf_touch, Finset.mem_erase, mem_pending, mem_append, mem_singleton,
      not_or, and_assoc, and_left_comm]
  rw [herase]
  split_ifs with hv
  · have hcard := Finset.card_erase_add_one (mem_pending.mpr ⟨hnew, hv⟩)
    omega
  · rw [Finset.erase_eq_of_notMem fun h => hv (mem_pending.mp h).2, add_zero]

/-- The loop of `Rebuild`: vertices are taken after those before them, and `inDegree` counts what is
left. -/
structure Extracting (calls : List (OrderingCall V)) (edges : EdgeMap V) (inDegree : DegreeMap V)
    (queue ordering : List V) : Prop where
  holds : Holds calls edges
  left : ∀ v, v ∈ inDegree ↔ Mentioned calls v ∧ v ∉ ordering
  degree : ∀ v ∈ inDegree, degreeOf inDegree v = (pending edges ordering v).card
  queued : ∀ v, v ∈ queue ↔ v ∈ inDegree ∧ degreeOf inDegree v = 0
  queue_nodup : queue.Nodup
  nodup : ordering.Nodup
  listed : ∀ v ∈ ordering, Mentioned calls v
  before : ∀ u v, EdgeOf calls u v → v ∈ ordering → ordering.idxOf u < ordering.idxOf v

theorem Extracting.step (h : Extracting calls edges deg (vertex :: queue) ordering)
    (ha : Acyclic (EdgeOf calls))
    {order : IterationOrder V} {inDegree' : DegreeMap V} {queue' : List V}
    (hrun : releaseTargets (order.targets vertex (targetsOf edges vertex))
      (deg.erase vertex) queue = (inDegree', queue')) : deg.lookup vertex = some 0 ∧
      Extracting calls (touch edges vertex) inDegree' queue' (ordering ++ [vertex]) := by
  obtain ⟨hmem, hzero⟩ := (h.queued vertex).mp mem_cons_self
  obtain ⟨hm, hnew⟩ := (h.left vertex).mp hmem
  obtain ⟨hout, hqueue⟩ := nodup_cons.mp h.queue_nodup
  have hperm := order.targets_perm vertex (targetsOf edges vertex)
  generalize order.targets vertex (targetsOf edges vertex) = targets at hperm hrun
  have hts : ∀ v, v ∈ targets ↔ v ∈ targetsOf edges vertex := fun v => hperm.mem_iff
  have hn : targets.Nodup := hperm.nodup_iff.mpr (h.holds.distinct vertex)
  rw [releaseTargets_eq hn, Prod.mk.injEq] at hrun
  obtain ⟨rfl, rfl⟩ := hrun
  -- Nothing is left before the vertex, and nothing after it has been taken.
  have hbefore : ∀ u, EdgeOf calls u vertex → u ∈ ordering := fun u hu => by
    by_contra hin
    have hcard := h.degree vertex hmem
    rw [hzero, eq_comm, Nat.cast_eq_zero, Finset.card_eq_zero] at hcard
    exact Finset.notMem_empty u (hcard ▸ mem_pending.mpr ⟨hin, (h.holds.edge u vertex).mpr hu⟩)
  have hafter : ∀ v ∈ targets, v ∈ deg ∧ v ≠ vertex := fun v hv => by
    have he := (h.holds.edge vertex v).mp ((hts v).mp hv)
    refine ⟨(h.left v).mpr ⟨.inr ⟨vertex, .inr he⟩, fun hin => ?_⟩, fun heq =>
      ha vertex (.single (heq ▸ he))⟩
    exact hnew (idxOf_lt_length_iff.mp ((h.before vertex v he hin).trans_le idxOf_le_length))
  have hkeys : ∀ v, v ∈ targets.foldl (bump (-1)) (deg.erase vertex) ↔ v ∈ deg ∧
      v ≠ vertex := fun v => by
    rw [(foldl_bump (-1) hn).2, AList.mem_erase, and_comm]
    exact or_iff_left_of_imp (hafter v)
  have herase : ∀ v, v ≠ vertex → degreeOf (deg.erase vertex) v = degreeOf deg v := fun v hv => by
    rw [degreeOf, AList.lookup_erase_ne hv, degreeOf]
  have hold : ∀ v ∈ deg, degreeOf deg v =
      (pending (touch edges vertex) (ordering ++ [vertex]) v).card + if v ∈ targets then 1 else 0 :=
          fun v hv => by
    simp only [h.degree v hv, card_pending hnew, hts]
  have hdegree : ∀ v ∈ deg, v ≠ vertex → degreeOf (targets.foldl (bump (-1)) (deg.erase vertex)) v =
      (pending (touch edges vertex) (ordering ++ [vertex]) v).card := fun v hv hne => by
    rw [(foldl_bump (-1) hn).1, herase v hne, hold v hv]
    split_ifs <;> omega
  refine ⟨lookup_eq_degreeOf hmem ▸ hzero ▸ rfl, h.holds.touch hm, fun v => ?_, fun v hv =>
    ?_, fun v => ?_, ?_, ?_, ?_, fun u v hu hv => ?_⟩
  · rw [hkeys, h.left, mem_append, mem_singleton, not_or, and_assoc]
  · obtain ⟨hin, hne⟩ := (hkeys v).mp hv
    exact hdegree v hin hne
  · -- A target joins the queue when its last edge is settled.
    have hq := h.queued v
    rw [mem_append, mem_filter, hkeys, decide_eq_true_eq]
    rw [mem_cons] at hq
    grind
  · refine nodup_append.mpr ⟨hqueue, hn.filter _, fun v hv t ht he => ?_⟩
    have hz := ((h.queued v).mp (mem_cons_of_mem _ hv)).2
    have hone := of_decide_eq_true (mem_filter.mp ht).2
    rw [← he, herase v (ne_of_mem_of_not_mem hv hout), hz] at hone
    exact absurd hone (by decide)
  · exact nodup_append.mpr ⟨h.nodup, nodup_singleton _, fun v hv t ht he =>
      hnew (mem_singleton.mp ht ▸ he ▸ hv)⟩
  · exact forall_mem_append.mpr ⟨h.listed, forall_mem_singleton.mpr hm⟩
  · by_cases hin : v ∈ ordering
    · have hlt := h.before u v hu hin
      have hmem := idxOf_lt_length_iff.mp (hlt.trans_le idxOf_le_length)
      rwa [idxOf_append_of_mem hin, idxOf_append_of_mem hmem]
    · obtain rfl := mem_singleton.mp ((mem_append.mp hv).resolve_left hin)
      rw [idxOf_append_of_mem (hbefore u hu), idxOf_append_of_notMem hin]
      exact (idxOf_lt_length_iff.mpr (hbefore u hu)).trans_le (Nat.le_add_right _ _)

theorem extractSources_spec (ha : Acyclic (EdgeOf calls)) (order : IterationOrder V) :
    ∀ {fuel : ℕ} {edges : EdgeMap V} {deg : DegreeMap V} {queue ordering : List V},
    Extracting calls edges deg queue ordering → deg.keys.length ≤ fuel →
    ∃ edges' inDegree' ordering', extractSources order fuel edges deg queue ordering =
      .ok (edges', inDegree', ordering') ∧ Extracting calls edges' inDegree' [] ordering'
  | _, edges, deg, [], ordering, h, _ => ⟨edges, deg, ordering, by rw [extractSources], h⟩
  | 0, _, _, vertex :: _, _, h, hfuel => by
    have hmem := AList.mem_keys.mp ((h.queued vertex).mp mem_cons_self).1
    exact absurd (length_pos_of_mem hmem) (by omega)
  | fuel + 1, edges, deg, vertex :: queue, ordering, h, hfuel => by
    rw [extractSources]
    rcases hrun : releaseTargets (order.targets vertex (targetsOf edges vertex))
        (deg.erase vertex) queue with
      ⟨inDegree', queue'⟩
    obtain ⟨hlookup, hnext⟩ := h.step ha hrun
    have hmem := AList.mem_keys.mp ((h.queued vertex).mp mem_cons_self).1
    have hsub : inDegree'.keys ⊆ deg.keys.erase vertex := fun v hv => by
      obtain ⟨hm, hnew⟩ := (hnext.left v).mp hv
      rw [mem_append, mem_singleton, not_or] at hnew
      exact (deg.keys_nodup.mem_erase_iff).mpr ⟨hnew.2, AList.mem_keys.mp ((h.left v).mpr ⟨hm, hnew.1⟩)⟩
    have hlength := (inDegree'.keys_nodup.subperm hsub).length_le
    rw [length_erase_of_mem hmem] at hlength
    rw [ytVerify_true hlookup, ok_bind]
    exact extractSources_spec ha order hnext (by omega)

/-- When the queue is empty every vertex has been taken: a vertex that is left has one before it
that is left. -/
theorem Extracting.keys_eq_nil (h : Extracting calls edges deg [] ordering)
    (ha : Acyclic (EdgeOf calls)) : deg.keys = [] := by
  by_contra hne
  obtain ⟨v, hv, hsource⟩ := exists_source ha deg.keys.toFinset ((toFinset_nonempty_iff _).mpr hne)
  rw [mem_toFinset, ← AList.mem_keys] at hv
  have hempty : pending edges ordering v = ∅ := Finset.eq_empty_of_forall_notMem fun u hu => by
    obtain ⟨hnew, he⟩ := mem_pending.mp hu
    rw [h.holds.edge] at he
    exact hsource u (mem_toFinset.mpr (AList.mem_keys.mp ((h.left u).mpr ⟨.inr ⟨v, .inl he⟩, hnew⟩))) he
  exact not_mem_nil ((h.queued v).mpr
    ⟨hv, by rw [h.degree v hv, hempty, Finset.card_empty, Nat.cast_zero]⟩)

theorem count_spec (h : Holds calls edges) (order : IterationOrder V) (v : V) :
    ∀ {sources : List V} (deg : DegreeMap V), sources.Nodup →
    degreeOf (countInDegrees order edges sources deg) v =
        degreeOf deg v + (sources.toFinset.filter fun u => v ∈ targetsOf edges u).card ∧
      (v ∈ countInDegrees order edges sources deg ↔ v ∈ deg ∨ v ∈ sources ∨
        ∃ u ∈ sources, v ∈ targetsOf edges u)
  | [], _, _ => by simp [countInDegrees]
  | w :: sources, deg, hn => by
    obtain ⟨hnew, hn⟩ := nodup_cons.mp hn
    have hperm := order.targets_perm w (targetsOf edges w)
    obtain ⟨hd, hm⟩ := count_spec h order v _ hn
    obtain ⟨hd', hm'⟩ := foldl_bump (v := v) 1 (hperm.nodup_iff.mpr (h.distinct w))
    rw [countInDegrees]
    refine ⟨hd.trans ?_, hm.trans ?_⟩
    · rw [hd', degreeOf_bump, ite_self, add_zero, toFinset_cons, Finset.filter_insert]
      by_cases hv : v ∈ targetsOf edges w
      · rw [if_pos (hperm.mem_iff.mpr hv), if_pos hv, Finset.card_insert_of_notMem (by simp [hnew])]
        push_cast
        ring
      · rw [if_neg (mt hperm.mem_iff.mp hv), if_neg hv, add_zero]
    · rw [hm', bump, AList.mem_insert, hperm.mem_iff, mem_cons, exists_mem_cons_iff]
      simp only [or_assoc, or_left_comm]

theorem extracting_start (h : Holds calls edges) (order : IterationOrder V)
    (hd : countInDegrees order edges (order.sources edges.keys) ∅ = deg) :
    Extracting calls edges deg ((order.degrees deg.keys).filter fun v => degreeOf deg v = 0) [] := by
  have hperm := order.sources_perm edges.keys
  have hcount := fun v => count_spec h order v ∅ (hperm.nodup_iff.mpr edges.keys_nodup)
  refine ⟨h, fun v => ?_, fun v _ => ?_, fun v => ?_, ?_, nodup_nil, by simp, by simp⟩
  · rw [← hd, (hcount v).2, and_iff_left not_mem_nil, or_iff_right (AList.notMem_empty v),
      hperm.mem_iff, ← h.mentioned, AList.mem_keys]
    refine or_congr_right (exists_congr fun u => ?_)
    rw [h.edge, hperm.mem_iff, and_iff_right_of_imp fun he =>
      AList.mem_keys.mp (mem_of_mem_targetsOf ((h.edge u v).mpr he))]
  · rw [← hd, (hcount v).1, toFinset_eq_of_perm _ _ hperm]
    simp [pending, degreeOf]
  · rw [mem_filter, (order.degrees_perm _).mem_iff, ← AList.mem_keys, decide_eq_true_eq]
  · exact ((order.degrees_perm _).nodup_iff.mpr deg.keys_nodup).filter _

structure Built (calls : List (OrderingCall V))
    (graph : IncrementalTopologicalOrdering V) : Prop where
  holds : Holds calls graph.outgoingEdges
  ordered : Ordered calls graph.topologicalOrdering

/-- `Rebuild` passes its checks and orders the vertices. -/
theorem Holds.rebuild (h : Holds calls edges) (ha : Acyclic (EdgeOf calls))
    (order : IterationOrder V) : ∃ graph, rebuild order edges = .ok graph ∧ Built calls graph := by
  obtain ⟨edges', deg, ordering, hrun, hend⟩ :=
    extractSources_spec ha order (extracting_start h order rfl) le_rfl
  have hkeys := hend.keys_eq_nil ha
  have hlisted : ∀ v, v ∈ ordering ↔ Mentioned calls v := fun v => ⟨hend.listed v, fun hm => by
    by_contra hout
    exact not_mem_nil (hkeys ▸ AList.mem_keys.mp ((hend.left v).mpr ⟨hm, hout⟩))⟩
  refine ⟨⟨ordering, edges'⟩, ?_, hend.holds, hend.nodup, hlisted, fun u v he => ?_⟩
  · rw [Misc.rebuild, hrun, ok_bind]
    dsimp only
    rw [ytVerify_true hkeys, ok_bind, pure_eq_ok]
  · exact hend.before u v he ((hlisted v).mpr (.inr ⟨u, .inr he⟩))

end Rebuild

/-! ### Sequences of calls -/

section Calls

variable {calls : List (OrderingCall V)} {graph : IncrementalTopologicalOrdering V}

omit [DecidableEq V] in
@[simp] theorem edgeOf_concat {call : OrderingCall V} {u v : V} :
    EdgeOf (calls ++ [call]) u v ↔ EdgeOf calls u v ∨ .addEdge u v = call := by
  simp [EdgeOf]

theorem Built.congr {calls' : List (OrderingCall V)} (h : Built calls graph)
    (he : ∀ u v, EdgeOf calls' u v ↔ EdgeOf calls u v)
    (hm : ∀ v, Mentioned calls' v ↔ Mentioned calls v) : Built calls' graph := by
  obtain ⟨⟨hd, hedge, hment⟩, hn, hl, hb⟩ := h
  exact ⟨⟨hd, by simpa only [he], by simpa only [he, hm]⟩, hn, by simpa only [hm],
    by simpa only [he]⟩

theorem Built.step (h : Built calls graph) (order : IterationOrder V) :
    ∀ call, Acyclic (EdgeOf (calls ++ [call])) →
    ∃ graph', graph.apply order call = .ok graph' ∧ Built (calls ++ [call]) graph'
  | .addVertex w, ha => by
    have hm := h.holds.mentioned
    rw [IncrementalTopologicalOrdering.apply]
    split_ifs with hw
    · refine ⟨graph, rfl, h.congr (by simp) fun v => ?_⟩
      have := (hm w).mp (.inl hw)
      simp only [Mentioned, mem_append, mem_singleton, edgeOf_concat] at this ⊢
      grind
    · refine Holds.rebuild ⟨fun v => ?_, fun u v => ?_, fun v => ?_⟩ ha order
      · rw [targetsOf_touch]
        exact h.holds.distinct v
      · simp [targetsOf_touch, h.holds.edge]
      · simp only [Mentioned, mem_append, mem_singleton, edgeOf_concat, touch, AList.mem_insert] at hm ⊢
        grind
  | .addEdge s t, ha => by
    have hm := h.holds.mentioned
    have he := h.holds.edge
    rw [IncrementalTopologicalOrdering.apply]
    split_ifs with ht
    · have hst := (he s t).mp ht
      refine ⟨graph, rfl, h.congr (fun u v => ?_) fun v => ?_⟩
      · rw [edgeOf_concat, OrderingCall.addEdge.injEq]
        grind
      · simp only [Mentioned, mem_append, mem_singleton, edgeOf_concat, OrderingCall.addEdge.injEq]
        grind
    · refine Holds.rebuild ⟨fun v => ?_, fun u v => ?_, fun v => ?_⟩ ha order
      · rw [targetsOf_insert]
        split_ifs
        · exact nodup_cons.mpr ⟨ht, h.holds.distinct s⟩
        · exact h.holds.distinct v
      · rw [targetsOf_insert, edgeOf_concat, OrderingCall.addEdge.injEq, ← he]
        grind
      · simp only [Mentioned, mem_append, mem_singleton, edgeOf_concat, OrderingCall.addEdge.injEq,
          AList.mem_insert] at hm ⊢
        grind

theorem runCalls_spec {all : List (OrderingCall V)} (ha : Acyclic (EdgeOf all)) :
    ∀ {rest : List (OrderingCall V × IterationOrder V)} {calls : List (OrderingCall V)}
    {graph : IncrementalTopologicalOrdering V}, Built calls graph →
    calls ++ rest.map Prod.fst ⊆ all →
    ∃ graph', rest.foldlM (fun graph call => graph.apply call.2 call.1) graph = .ok graph' ∧
      Built (calls ++ rest.map Prod.fst) graph'
  | [], calls, graph, h, _ => ⟨graph, rfl, by simpa using h⟩
  | (call, order) :: rest, calls, graph, h, hall => by
    rw [map_cons, append_cons] at hall ⊢
    have hstep : EdgeOf (calls ++ [call]) ≤ EdgeOf all := fun u v he => hall (mem_append_left _ he)
    obtain ⟨graph', hrun, h'⟩ := h.step order call fun v hv => ha v (TransGen.mono hstep v v hv)
    rw [foldlM_cons, hrun, ok_bind]
    exact runCalls_spec ha h' hall

end Calls

/-- After each of the calls the checks have passed and the ordering lists every vertex that a call
named once, sources before targets, whatever the iteration orders are. -/
theorem topologicalOrdering_extends (calls : List (OrderingCall V × IterationOrder V))
    (ha : Acyclic (EdgeOf (calls.map Prod.fst))) (n : ℕ) : ∃ graph, runCalls (calls.take n) =
      .ok graph ∧ Ordered ((calls.take n).map Prod.fst) graph.topologicalOrdering := by
  have hnil : Built [] ({} : IncrementalTopologicalOrdering V) :=
    ⟨⟨fun v => nodup_nil, by simp [EdgeOf, targetsOf], by simp [Mentioned, EdgeOf]⟩, nodup_nil,
      by simp [Mentioned, EdgeOf], by simp [EdgeOf]⟩
  obtain ⟨graph, hrun, hb⟩ := runCalls_spec ha hnil (map_subset _ (take_subset n calls))
  exact ⟨graph, hrun, hb.ordered⟩

/-- Two edges and a vertex that is named twice, in the order of the calls. -/
theorem topologicalOrdering_extends_three :
    let order : IterationOrder ℕ :=
  ⟨id, fun _ => .rfl, fun _ => id, fun _ _ => .rfl, id, fun _ => .rfl⟩
    ∃ graph, runCalls [(.addEdge 2 1, order), (.addVertex 1, order), (.addEdge 1 0, order)] =
        .ok graph ∧ graph.topologicalOrdering.idxOf 2 < graph.topologicalOrdering.idxOf 1 := by
  intro order
  have hdown : TransGen (EdgeOf [.addEdge 2 1, .addVertex 1, .addEdge 1 0]) ≤ fun u v : ℕ => u > v :=
    transGen_minimal fun u v h => by simp [EdgeOf] at h; omega
  obtain ⟨graph, hrun, ho⟩ := topologicalOrdering_extends
    [(.addEdge 2 1, order), (.addVertex 1, order), (.addEdge 1 0, order)]
      (fun v hv => lt_irrefl v (hdown v v hv)) 3
  exact ⟨graph, hrun, ho.before 2 1 (by simp [EdgeOf])⟩

end Ytsaurus.Misc
