import OmegaGames.Attractor
import OmegaGames.Proofs.PredecessorLists
import OmegaGames.Proofs.NodeSets

/-!
# What a backward search finds

The state of a search is described by the list of the edges taken in so far. A node that is not yet
reached still misses as many edges as it needs, less those of its edges that were taken in; when the
last one comes in, all edges taken in before lead to nodes that were found earlier. The order of
discovery is therefore a rank that goes down to the target.

`Takes` says what a single step of a search has to do for this, also of one that overlooks some edges.
`Attraction` collects what is known of a search that has come to its end.
-/
namespace OmegaGames

namespace Front

def rank (f : Front) (v : Nat) : Nat := f.found.toList.idxOf v

end Front

variable {W : Type}

namespace Game

/-- How many edges into the attractor it takes to attract a node. -/
def needed (g : Game W) (nodes : NodeSet) (player : Player) (u : Nat) : Nat :=
  if g.owner u = player ∨ g.owner u = .stochastic then 1
  else ((g.succs u).filter nodes.contains).length

def admitted (g : Game W) (admits : Nat → Nat × Nat → Bool) (vs : List Nat) : List (Nat × Nat) :=
  vs.flatMap fun v => (g.predecessors.of v).filter (admits v)

theorem admitted_all (g : Game W) (vs : List Nat) :
    g.admitted (fun _ _ => true) vs = vs.flatMap g.predecessors.of := by
  simp [admitted]

private def positionsInto (g : Game W) (nodes : NodeSet) (u : Nat) : List Nat :=
  ((g.succs u).zipIdx.filter fun x => nodes.contains x.1).map Prod.snd

private theorem length_positionsInto (g : Game W) (nodes : NodeSet) (u : Nat) :
    (g.positionsInto nodes u).length = ((g.succs u).filter nodes.contains).length := by
  have hfilter : ((g.succs u).zipIdx.map Prod.fst).filter nodes.contains =
      ((g.succs u).zipIdx.filter fun x => nodes.contains x.1).map Prod.fst := List.filter_map
  rw [List.zipIdx_map_fst] at hfilter
  simp [positionsInto, hfilter]

private theorem mem_positionsInto (g : Game W) (nodes : NodeSet) (u i : Nat) :
    i ∈ g.positionsInto nodes u ↔ ∃ t, g.succ? u i = some t ∧ t ∈ nodes := by
  simp only [positionsInto, List.mem_map, List.mem_filter, List.mem_zipIdx_iff_getElem?]
  constructor
  · rintro ⟨⟨t, j⟩, ⟨ht, hn⟩, rfl⟩
    exact ⟨t, ht, hn⟩
  · rintro ⟨t, ht, hn⟩
    exact ⟨(t, i), ⟨ht, hn⟩, rfl⟩

/-- If as many distinct edges of a node as lead into a set were collected, all of them were. -/
private theorem mem_of_le_countP {g : Game W} {nodes : NodeSet} {es : List (Nat × Nat)} {u : Nat}
    (hd : es.Nodup) (hl : ∀ i, (u, i) ∈ es → ∃ t ∈ nodes, g.succ? u i = some t)
    (hc : ((g.succs u).filter nodes.contains).length ≤ es.countP (·.1 = u)) {i t : Nat}
    (hi : g.succ? u i = some t) (ht : t ∈ nodes) : (u, i) ∈ es := by
  let taken := (es.filter (·.1 = u)).map Prod.snd
  have htaken : ∀ j, j ∈ taken ↔ (u, j) ∈ es := by
    intro j
    simp only [taken, List.mem_map, List.mem_filter, decide_eq_true_eq]
    constructor
    · rintro ⟨⟨w, k⟩, ⟨hwk, rfl⟩, rfl⟩
      exact hwk
    · intro hj
      exact ⟨(u, j), ⟨hj, rfl⟩, rfl⟩
  have hnodup : taken.Nodup := by
    refine List.Nodup.map_on ?_ (hd.filter _)
    rintro ⟨a, j⟩ ha ⟨b, k⟩ hb hjk
    simp only [List.mem_filter, decide_eq_true_eq] at ha hb
    rw [ha.2, hb.2]
    exact congrArg _ hjk
  have hsub : taken ⊆ g.positionsInto nodes u := by
    intro j hj
    obtain ⟨t, ht, hst⟩ := hl j ((htaken j).mp hj)
    exact (g.mem_positionsInto nodes u j).mpr ⟨t, hst, ht⟩
  have hlen : (g.positionsInto nodes u).length ≤ taken.length := by
    have hcount : taken.length = es.countP (·.1 = u) := by
      simp [taken, List.countP_eq_length_filter]
    rw [g.length_positionsInto, hcount]
    exact hc
  have hperm := (hnodup.subperm hsub).perm_of_length_le hlen
  exact (htaken i).mp (hperm.mem_iff.mpr ((g.mem_positionsInto nodes u i).mpr ⟨t, hi, ht⟩))

/-- If all edges of a node into a set were collected, at least as many were as lead into it. -/
private theorem length_filter_le_countP {g : Game W} {nodes : NodeSet} {es : List (Nat × Nat)}
    {u : Nat} (hall : ∀ i t, g.succ? u i = some t → t ∈ nodes → (u, i) ∈ es) :
    ((g.succs u).filter nodes.contains).length ≤ es.countP (·.1 = u) := by
  have hnodup : ((g.positionsInto nodes u).map fun i => (u, i)).Nodup := by
    refine List.Nodup.map (fun i j hij => congrArg Prod.snd hij) ?_
    refine List.Nodup.sublist (List.Sublist.map _ List.filter_sublist) ?_
    rw [List.zipIdx_map_snd]
    exact List.nodup_range'
  have hsub : ((g.positionsInto nodes u).map fun i => (u, i)) ⊆ es.filter (·.1 = u) := by
    intro e he
    obtain ⟨i, hi, rfl⟩ := List.mem_map.mp he
    obtain ⟨t, ht, htn⟩ := (g.mem_positionsInto nodes u i).mp hi
    exact List.mem_filter.mpr ⟨hall i t ht htn, by simp⟩
  have hle := (hnodup.subperm hsub).length_le
  rw [List.length_map, g.length_positionsInto] at hle
  rwa [List.countP_eq_length_filter]

end Game

/-- What a search keeps true at all times of the nodes that it has reached. Every one of them outside
of the target was drawn in by nodes found before it: a node of the player by the edge that is recorded,
a node of chance by one edge, and a node of the opponent by all its edges inside `nodes`. -/
structure Drawn (g : Game W) (target nodes blocked : NodeSet) (player : Player) (σ : Strategy)
    (f : Front) : Prop where
  range : f.reached.range = g.size
  inside : ∀ v ∈ f.reached, v ∈ nodes
  seeded : ∀ v ∈ nodes, v ∈ target → v ∈ f.reached
  free : ∀ v ∈ f.reached, v ∉ target → v ∉ blocked
  own : ∀ u ∈ f.reached, u ∉ target → g.owner u = player → ∃ i t, g.succ? u i = some t ∧
    t ∈ f.reached ∧ f.rank t < f.rank u ∧ (u < σ.size → f.strategy.get u = some i)
  chance : ∀ u ∈ f.reached, u ∉ target → g.owner u = .stochastic →
    ∃ t ∈ g.succs u, t ∈ f.reached ∧ f.rank t < f.rank u
  other : ∀ u ∈ f.reached, u ∉ target → g.owner u ≠ player → g.owner u ≠ .stochastic →
    (∃ t ∈ g.succs u, t ∈ nodes) ∧
      ∀ t ∈ g.succs u, t ∈ nodes → t ∈ f.reached ∧ f.rank t < f.rank u
  size_strategy : f.strategy.size = σ.size
  frame : ∀ u, u ∉ f.reached ∨ u ∈ target ∨ g.owner u ≠ player → f.strategy.get u = σ.get u

/-- What holds of a search after the edges `es` were taken in, in this order. -/
structure Pulled (g : Game W) (target nodes blocked : NodeSet) (player : Player) (σ : Strategy)
    (es : List (Nat × Nat)) (f : Front) : Prop extends Drawn g target nodes blocked player σ f where
  sized : f.remaining.size = g.size
  nodup : f.found.toList.Nodup
  mem_found : ∀ v, v ∈ f.found.toList ↔ v ∈ f.reached
  waiting : ∀ u ∈ nodes, u ∉ f.reached → u ∉ blocked →
    f.missing u + es.countP (·.1 = u) = g.needed nodes player u ∧
      (g.needed nodes player u ≠ 0 → f.missing u ≠ 0)
  leads : ∀ u i, (u, i) ∈ es → ∃ t ∈ f.reached, g.succ? u i = some t
  distinct : es.Nodup

namespace Front

variable (f : Front) (u v : Nat)

theorem missing_count :
    (f.count u).missing v = if u = v then f.missing v - 1 else f.missing v := by
  by_cases huv : u = v
  · subst huv
    by_cases hs : u < f.remaining.size <;> simp [count, missing, Array.getD, hs]
  · simp [count, missing, Array.getD_eq_getD_getElem?, huv]

private theorem rank_push_of_mem {f' : Front} (hf : f'.found.toList = f.found.toList ++ [u])
    (h : v ∈ f.found.toList) : f'.rank v = f.rank v := by
  rw [rank, hf, List.idxOf_append_of_mem h, rank]

private theorem rank_push_self {f' : Front} (hf : f'.found.toList = f.found.toList ++ [u])
    (h : u ∉ f.found.toList) : f'.rank u = f.found.toList.length := by
  rw [rank, hf, List.idxOf_append_of_notMem h]
  simp

private theorem rank_lt_length (h : v ∈ f.found.toList) : f.rank v < f.found.toList.length :=
  List.idxOf_lt_length_of_mem h

end Front

namespace Pulled

variable {g : Game W} {target nodes blocked : NodeSet} {player : Player} {σ : Strategy}
  {es : List (Nat × Nat)} {f : Front} {u i v : Nat}

private theorem leads_append (h : Pulled g target nodes blocked player σ es f)
    (he : g.succ? u i = some v) (hv : v ∈ f.reached) (w j : Nat) (hw : (w, j) ∈ es ++ [(u, i)]) :
    ∃ t ∈ f.reached, g.succ? w j = some t := by
  rcases List.mem_append.mp hw with hw | hw
  · exact h.leads w j hw
  · rw [List.mem_singleton] at hw
    cases hw
    exact ⟨v, hv, he⟩

private theorem distinct_append (h : Pulled g target nodes blocked player σ es f)
    (hnew : (u, i) ∉ es) : (es ++ [(u, i)]).Nodup :=
  h.distinct.append (List.nodup_singleton _) (by simpa using hnew)

theorem skip (h : Pulled g target nodes blocked player σ es f)
    (he : g.succ? u i = some v) (hv : v ∈ f.reached) (hnew : (u, i) ∉ es)
    (hu : u ∉ nodes ∨ u ∈ f.reached ∨ u ∈ blocked) :
    Pulled g target nodes blocked player σ (es ++ [(u, i)]) f := by
  refine { h with waiting := ?_, leads := h.leads_append he hv, distinct := h.distinct_append hnew }
  intro w hw hwr hwb
  have huw : u ≠ w := by
    rintro rfl
    rcases hu with hu | hu | hu
    · exact hu hw
    · exact hwr hu
    · exact hwb hu
  simpa [List.countP_append, huw] using h.waiting w hw hwr hwb

theorem wait (h : Pulled g target nodes blocked player σ es f)
    (he : g.succ? u i = some v) (hv : v ∈ f.reached) (hnew : (u, i) ∉ es)
    (hm : (f.count u).missing u ≠ 0) :
    Pulled g target nodes blocked player σ (es ++ [(u, i)]) (f.count u) := by
  refine { h with
    sized := by simpa [Front.count] using h.sized
    waiting := ?_
    leads := h.leads_append he hv
    distinct := h.distinct_append hnew }
  intro w hw hwr hwb
  obtain ⟨hsum, hpos⟩ := h.waiting w hw hwr hwb
  rw [Front.missing_count] at hm ⊢
  by_cases huw : u = w
  · subst huw
    simp only [if_true, List.countP_append, List.countP_singleton, decide_true] at hm ⊢
    omega
  · simpa [List.countP_append, huw] using ⟨hsum, hpos⟩

structure Joins (g : Game W) (player : Player) (f : Front) (u i : Nat) (f' : Front) : Prop where
  reached : f'.reached = f.reached.insert u
  found : f'.found.toList = f.found.toList ++ [u]
  sized : f'.remaining.size = f.remaining.size
  missing : ∀ w, w ≠ u → f'.missing w = f.missing w
  strategy : f'.strategy = if g.owner u = player then f.strategy.set u i else f.strategy

section Joins

variable {f' : Front} (h : Pulled g target nodes blocked player σ es f)
  (hj : Joins g player f u i f') (hg : u < g.size) (hr : u ∉ f.reached)

include h hj hg in
private theorem Joins.mem_reached (w : Nat) : w ∈ f'.reached ↔ w ∈ f.reached ∨ w = u := by
  rw [hj.reached]
  exact NodeSet.mem_insert (h.range ▸ hg)

include h hj in
private theorem Joins.rank_old {w : Nat} (hw : w ∈ f.reached) : f'.rank w = f.rank w :=
  Front.rank_push_of_mem f u w hj.found ((h.mem_found w).mpr hw)

include h hj hr in
private theorem Joins.rank_lt {w : Nat} (hw : w ∈ f.reached) : f'.rank w < f'.rank u := by
  rw [hj.rank_old h hw, Front.rank_push_self f u hj.found fun hf => hr ((h.mem_found u).mp hf)]
  exact Front.rank_lt_length f w ((h.mem_found w).mpr hw)

include hj in
private theorem Joins.get_old {w : Nat} (hw : w ≠ u) : f'.strategy.get w = f.strategy.get w := by
  rw [hj.strategy]
  split
  · rw [Strategy.get_set, if_neg fun hwu => hw hwu.1.symm]
  · rfl

include h in
/-- When the last edge of an opponent's node comes in, all its successors have been reached. -/
private theorem mem_reached_of_needed (he : g.succ? u i = some v) (hv : v ∈ f.reached)
    (hnew : (u, i) ∉ es) (ho : g.owner u ≠ player) (hs : g.owner u ≠ .stochastic)
    (hc : g.needed nodes player u ≤ (es ++ [(u, i)]).countP (·.1 = u)) {t : Nat}
    (ht : t ∈ g.succs u) (htn : t ∈ nodes) : t ∈ f.reached := by
  rw [Game.needed, if_neg (not_or.mpr ⟨ho, hs⟩)] at hc
  obtain ⟨j, hjt⟩ := (g.mem_succs_iff u t).mp ht
  have htaken := Game.mem_of_le_countP (h.distinct_append hnew)
    (fun k hk => (h.leads_append he hv u k hk).imp fun t ht => ⟨h.inside t ht.1, ht.2⟩) hc hjt htn
  obtain ⟨t', ht', hjt'⟩ := h.leads_append he hv u j htaken
  rw [hjt, Option.some.injEq] at hjt'
  exact hjt' ▸ ht'

include h hj hr in
private theorem Joins.frame (hu : u ∈ nodes) {w : Nat}
    (hw : (w ∉ f.reached ∧ w ≠ u) ∨ w ∈ target ∨ g.owner w ≠ player) :
    f'.strategy.get w = σ.get w := by
  by_cases hwu : w = u
  · subst hwu
    have ho : g.owner w ≠ player := by
      rcases hw with hw | hw | hw
      · exact absurd rfl hw.2
      · exact absurd (h.seeded w hu hw) hr
      · exact hw
    rw [hj.strategy, if_neg ho]
    exact h.frame w (Or.inl hr)
  · rw [hj.get_old hwu]
    exact h.frame w (hw.imp_left And.left)

include h hj hg hr in
/-- All edges that were taken in lead to nodes found before the new one. -/
private theorem Joins.drawn (he : g.succ? u i = some v) (hv : v ∈ f.reached) (hnew : (u, i) ∉ es)
    (hu : u ∈ nodes) (hb : u ∉ blocked)
    (hc : g.needed nodes player u ≤ (es ++ [(u, i)]).countP (·.1 = u)) :
    Drawn g target nodes blocked player σ f' := by
  have hmem := hj.mem_reached h hg
  have hold : ∀ {w}, w ∈ f.reached → w ∈ f'.reached := fun hw => (hmem _).mpr (Or.inl hw)
  refine {
    range := by simpa [hj.reached] using h.range
    inside := ?inside
    seeded := fun w hw ht => hold (h.seeded w hw ht)
    free := ?free, own := ?own, chance := ?chance, other := ?other, size_strategy := ?size
    frame := ?frame }
  case inside =>
    intro w hw
    rcases (hmem w).mp hw with hw | rfl
    · exact h.inside w hw
    · exact hu
  case free =>
    intro w hw ht
    rcases (hmem w).mp hw with hw | rfl
    · exact h.free w hw ht
    · exact hb
  case own =>
    intro w hw ht ho
    rcases (hmem w).mp hw with hw | rfl
    · obtain ⟨j, t, hjt, htr, hlt, hs⟩ := h.own w hw ht ho
      have hwu : w ≠ u := fun hwu => hr (hwu ▸ hw)
      refine ⟨j, t, hjt, hold htr, ?_, ?_⟩
      · rwa [hj.rank_old h htr, hj.rank_old h hw]
      · rwa [hj.get_old hwu]
    · refine ⟨i, v, he, hold hv, hj.rank_lt h hr hv, fun hs => ?_⟩
      rw [hj.strategy, if_pos ho, Strategy.get_set, h.size_strategy, if_pos ⟨rfl, hs⟩]
  case chance =>
    intro w hw ht ho
    rcases (hmem w).mp hw with hw | rfl
    · obtain ⟨t, hst, htr, hlt⟩ := h.chance w hw ht ho
      exact ⟨t, hst, hold htr, by rwa [hj.rank_old h htr, hj.rank_old h hw]⟩
    · exact ⟨v, g.mem_succs_of_succ? he, hold hv, hj.rank_lt h hr hv⟩
  case other =>
    intro w hw ht ho hs
    rcases (hmem w).mp hw with hw | rfl
    · obtain ⟨hex, hall⟩ := h.other w hw ht ho hs
      refine ⟨hex, fun t hst htn => ?_⟩
      obtain ⟨htr, hlt⟩ := hall t hst htn
      exact ⟨hold htr, by rwa [hj.rank_old h htr, hj.rank_old h hw]⟩
    · refine ⟨⟨v, g.mem_succs_of_succ? he, h.inside v hv⟩, fun t hst htn => ?_⟩
      have htr := mem_reached_of_needed h he hv hnew ho hs hc hst htn
      exact ⟨hold htr, hj.rank_lt h hr htr⟩
  case size =>
    rw [hj.strategy]
    split
    · rw [Strategy.size_set, h.size_strategy]
    · exact h.size_strategy
  case frame =>
    intro w hw
    refine hj.frame h hr hu (hw.imp_left fun hnot => ?_)
    exact not_or.mp (mt (hmem w).mpr hnot)

include h hj hg hr in
theorem attracted (he : g.succ? u i = some v) (hv : v ∈ f.reached) (hnew : (u, i) ∉ es)
    (hu : u ∈ nodes) (hb : u ∉ blocked) (hm : (f.count u).missing u = 0) :
    Pulled g target nodes blocked player σ (es ++ [(u, i)]) f' := by
  have hmem := hj.mem_reached h hg
  have hneeded : g.needed nodes player u ≤ (es ++ [(u, i)]).countP (·.1 = u) := by
    obtain ⟨hsum, -⟩ := h.waiting u hu hr hb
    rw [Front.missing_count, if_pos rfl] at hm
    simp only [List.countP_append, List.countP_singleton, decide_true, if_true]
    omega
  have hfresh : u ∉ f.found.toList := fun hf => hr ((h.mem_found u).mp hf)
  refine { hj.drawn h hg hr he hv hnew hu hb hneeded with
    sized := hj.sized.trans h.sized
    nodup := ?nodup, mem_found := ?found, waiting := ?waiting, leads := ?leads
    distinct := h.distinct_append hnew }
  case nodup =>
    rw [hj.found]
    exact h.nodup.append (List.nodup_singleton u) (by simpa using hfresh)
  case found =>
    intro w
    rw [hj.found, hmem, List.mem_append, List.mem_singleton, h.mem_found]
  case waiting =>
    intro w hw hwr hwb
    have hwu : u ≠ w := fun huw => hwr ((hmem w).mpr (Or.inr huw.symm))
    rw [hj.missing w hwu.symm]
    simpa [List.countP_append, hwu] using
      h.waiting w hw (fun hwf => hwr ((hmem w).mpr (Or.inl hwf))) hwb
  case leads =>
    intro w j hwj
    obtain ⟨t, ht, hst⟩ := h.leads_append he hv w j hwj
    exact ⟨t, (hmem t).mpr (Or.inl ht), hst⟩

end Joins

theorem pull (h : Pulled g target nodes blocked player σ es f) (he : g.succ? u i = some v)
    (hv : v ∈ f.reached) (hnew : (u, i) ∉ es) :
    Pulled g target nodes blocked player σ (es ++ [(u, i)])
      (g.arena.pull nodes blocked player f (u, i)) := by
  simp only [Arena.pull]
  split
  · rename_i hskip
    refine h.skip he hv hnew ?_
    simpa [or_assoc] using hskip
  · rename_i hskip
    simp only [Bool.or_eq_true, Bool.not_eq_true', not_or, Bool.not_eq_false] at hskip
    obtain ⟨⟨hu, hr⟩, hb⟩ := hskip
    have hg : u < g.size := g.lt_size_of_mem_succs (g.mem_succs_of_succ? he)
    split
    · rename_i hm
      refine h.attracted ?_ hg hr he hv hnew hu hb hm
      constructor
      case missing =>
        intro w hw
        have hcount : ((f.count u).join u).missing w = f.missing w :=
          (f.missing_count u w).trans (if_neg hw.symm)
        split <;> exact hcount
      all_goals split <;> simp_all [Game.arena, Front.record, Front.join, Front.count]
    · rename_i hm
      exact h.wait he hv hnew hm

end Pulled

namespace Arena

variable (a : Arena W) (nodes blocked : NodeSet) (player : Player)

theorem found_prefix_pull (f : Front) (e : Nat × Nat) :
    f.found.toList <+: (a.pull nodes blocked player f e).found.toList := by
  obtain ⟨u, i⟩ := e
  simp only [pull]
  split
  · exact List.prefix_rfl
  · split
    · split <;> simp [Front.record, Front.join, Front.count]
    · exact List.prefix_rfl

end Arena

namespace Pulled

variable {g : Game W} {target nodes blocked : NodeSet} {player : Player} {σ : Strategy}
  {es : List (Nat × Nat)} {f : Front} {v : Nat}

theorem mem_reached_of_prefix {es' : List (Nat × Nat)} {f' : Front}
    (h : Pulled g target nodes blocked player σ es f)
    (h' : Pulled g target nodes blocked player σ es' f')
    (hp : f.found.toList <+: f'.found.toList) (hv : v ∈ f.reached) : v ∈ f'.reached :=
  (h'.mem_found v).mp (hp.subset ((h.mem_found v).mpr hv))

theorem lt_size (h : Pulled g target nodes blocked player σ es f)
    (hv : v ∈ f.found.toList) : v < g.size := by
  rw [← h.range]
  exact NodeSet.contains_lt ((h.mem_found v).mp hv)

theorem length_found_le (h : Pulled g target nodes blocked player σ es f) :
    f.found.toList.length ≤ g.size := by
  have hsub : f.found.toList ⊆ List.range g.size := fun v hv => List.mem_range.mpr (h.lt_size hv)
  simpa using (h.nodup.subperm hsub).length_le

/-- Edges taken in before lead to nodes found before `v`, so none of them is met again. -/
private theorem nodup_admitted {admits : Nat → Nat × Nat → Bool} {next : Nat}
    (h : Pulled g target nodes blocked player σ (g.admitted admits (f.found.toList.take next)) f)
    (hget : f.found.toList[next]? = some v) :
    (g.admitted admits (f.found.toList.take next) ++ g.predecessors.of v).Nodup := by
  obtain ⟨hlt, hval⟩ := List.getElem?_eq_some_iff.mp hget
  have hvg := h.lt_size (List.mem_of_getElem? hget)
  refine h.distinct.append (g.nodup_predecessors_of hvg) ?_
  rintro ⟨u, i⟩ hold hnew
  obtain ⟨w, hw, hui⟩ := List.mem_flatMap.mp hold
  have hwg := h.lt_size (List.mem_of_mem_take hw)
  have heq := ((g.mem_predecessors_of hwg).mp (List.mem_filter.mp hui).1).symm.trans
    ((g.mem_predecessors_of hvg).mp hnew)
  obtain rfl := Option.some.inj heq
  obtain ⟨k, hk, hkw⟩ := List.mem_take_iff_getElem.mp hw
  have hkn := (List.Nodup.getElem_inj_iff h.nodup).mp (hkw.trans hval.symm)
  omega

theorem seed (hn : nodes.range = g.size) :
    Pulled g target nodes blocked player σ [] (g.arena.seed target nodes player σ) := by
  have hmem : ∀ v, v ∈ (g.arena.seed target nodes player σ).reached ↔ v ∈ nodes ∧ v ∈ target := by
    intro v
    simp only [Arena.seed, Game.arena, NodeSet.mem_iff, NodeSet.contains_ofPred, Bool.and_eq_true,
      decide_eq_true_eq]
    exact ⟨And.right, fun h => ⟨hn ▸ NodeSet.contains_lt h.1, h⟩⟩
  have hfound : (g.arena.seed target nodes player σ).found.toList = (nodes.inter target).toList := by
    simp [Arena.seed]
  have hmissing : ∀ u ∈ nodes, (g.arena.seed target nodes player σ).missing u =
      g.needed nodes player u := by
    intro u hu
    have hg : u < g.size := hn ▸ NodeSet.contains_lt hu
    by_cases ho : g.owner u = player ∨ g.owner u = .stochastic <;>
      simp [Arena.seed, Front.missing, Game.needed, Game.arena, Array.getD, hg, ho]
  refine {
    range := by simp [Arena.seed, Game.arena]
    sized := by simp [Arena.seed, Game.arena]
    nodup := ?_, mem_found := ?_
    inside := fun v hv => ((hmem v).mp hv).1
    seeded := fun v hv ht => (hmem v).mpr ⟨hv, ht⟩
    free := fun v hv ht => absurd ((hmem v).mp hv).2 ht
    waiting := ?_
    leads := by simp
    distinct := List.nodup_nil
    own := fun v hv ht => absurd ((hmem v).mp hv).2 ht
    chance := fun v hv ht => absurd ((hmem v).mp hv).2 ht
    other := fun v hv ht => absurd ((hmem v).mp hv).2 ht
    size_strategy := rfl
    frame := fun _ _ => rfl }
  · rw [hfound]
    exact List.nodup_range.filter _
  · intro v
    rw [hfound, hmem, NodeSet.mem_toList]
    simp [NodeSet.inter]
  · intro u hu _ _
    rw [hmissing u hu]
    simp

end Pulled

/-- A way of taking in edges into reached nodes. The edges that `admits` lets pass come in one by one, and
the others change nothing. -/
structure Takes (g : Game W) (target nodes blocked : NodeSet) (player : Player) (σ : Strategy)
    (admits : Nat → Nat × Nat → Bool) (visit : Nat → Front → Nat × Nat → Front) : Prop where
  grows : ∀ v f e, f.found.toList <+: (visit v f e).found.toList
  step : ∀ {es : List (Nat × Nat)} {f : Front} {u i v : Nat}, Pulled g target nodes blocked player σ es f →
    g.succ? u i = some v → v ∈ f.reached → (u, i) ∉ es →
    Pulled g target nodes blocked player σ (es ++ [(u, i)].filter (admits v)) (visit v f (u, i))

namespace Takes

variable {g : Game W} {target nodes blocked : NodeSet} {player : Player} {σ : Strategy}
  {admits : Nat → Nat × Nat → Bool} {visit : Nat → Front → Nat × Nat → Front}

theorem pull : Takes g target nodes blocked player σ (fun _ _ => true)
    fun _ => g.arena.pull nodes blocked player where
  grows _ := Arena.found_prefix_pull g.arena nodes blocked player
  step h he hv hnew := h.pull he hv hnew

variable (t : Takes g target nodes blocked player σ admits visit) {es : List (Nat × Nat)} {f : Front}
  {v : Nat}

include t

private theorem grows_foldl (v : Nat) (f : Front) (es : List (Nat × Nat)) :
    f.found.toList <+: (es.foldl (visit v) f).found.toList := by
  induction es generalizing f with
  | nil => exact List.prefix_rfl
  | cons e es ih => exact (t.grows v f e).trans (ih _)

private theorem foldl (h : Pulled g target nodes blocked player σ es f) (hv : v ∈ f.reached)
    (new : List (Nat × Nat)) (hnew : ∀ u i, (u, i) ∈ new → g.succ? u i = some v)
    (hd : (es ++ new).Nodup) :
    Pulled g target nodes blocked player σ (es ++ new.filter (admits v)) (new.foldl (visit v) f) := by
  induction new generalizing es f with
  | nil => simpa using h
  | cons e new ih =>
    obtain ⟨u, i⟩ := e
    have hfresh : (u, i) ∉ es := by
      intro hmem
      exact (List.nodup_append.mp hd).2.2 _ hmem _ List.mem_cons_self rfl
    have hstep := t.step h (hnew u i List.mem_cons_self) hv hfresh
    have hrest := ih hstep (h.mem_reached_of_prefix hstep (t.grows v f (u, i)) hv)
      (fun w j hw => hnew w j (List.mem_cons_of_mem _ hw)) ?_
    · rwa [List.append_assoc, ← List.filter_append] at hrest
    · rw [List.append_cons] at hd
      exact hd.sublist ((List.filter_sublist.append_left es).append_right new)

theorem visit_found {next : Nat}
    (h : Pulled g target nodes blocked player σ (g.admitted admits (f.found.toList.take next)) f)
    (hget : f.found.toList[next]? = some v) :
    ∃ f', (g.predecessors.of v).foldl (visit v) f = f' ∧
      Pulled g target nodes blocked player σ (g.admitted admits (f'.found.toList.take (next + 1))) f' := by
  obtain ⟨hlt, -⟩ := List.getElem?_eq_some_iff.mp hget
  have hmem : v ∈ f.found.toList := List.mem_of_getElem? hget
  have hedges : ∀ u i, (u, i) ∈ g.predecessors.of v → g.succ? u i = some v :=
    fun u i hui => (g.mem_predecessors_of (h.lt_size hmem)).mp hui
  have hnext := t.foldl h ((h.mem_found v).mp hmem) _ hedges (h.nodup_admitted hget)
  obtain ⟨rest, hrest⟩ := t.grows_foldl v f (g.predecessors.of v)
  refine ⟨_, rfl, ?_⟩
  rw [← hrest, List.take_append_of_le_length hlt, List.take_add_one, hget]
  simpa [Game.admitted] using hnext

/-- The search after the found nodes before number `next` were worked off, and all the rest of it: in
the end all admitted edges into found nodes were taken in. -/
theorem drain (steps next : Nat)
    (h : Pulled g target nodes blocked player σ (g.admitted admits (f.found.toList.take next)) f)
    (hs : g.size ≤ steps + next) :
    ∃ f', Front.drain g.predecessors visit steps next f = f' ∧
      Pulled g target nodes blocked player σ (g.admitted admits f'.found.toList) f' := by
  induction steps generalizing next f with
  | zero =>
    have hle := h.length_found_le
    rw [List.take_of_length_le (by omega)] at h
    exact ⟨f, rfl, h⟩
  | succ steps ih =>
    rw [Front.drain]
    split
    · rename_i hnone
      rw [List.take_of_length_le (by simpa using hnone)] at h
      exact ⟨f, rfl, h⟩
    · rename_i v hsome
      obtain ⟨f', hf', hnext⟩ := t.visit_found h (by simpa using hsome)
      rw [hf']
      exact ih (next + 1) hnext (by omega)

end Takes

namespace Pulled

variable {g : Game W} {target nodes blocked : NodeSet} {player : Player} {σ : Strategy} {f : Front}
  {v next : Nat}

theorem nodup_step
    (h : Pulled g target nodes blocked player σ
      ((f.found.toList.take next).flatMap g.predecessors.of) f)
    (hget : f.found.toList[next]? = some v) :
    ((f.found.toList.take next).flatMap g.predecessors.of ++ g.predecessors.of v).Nodup := by
  rw [← g.admitted_all] at h ⊢
  exact h.nodup_admitted hget

theorem visit
    (h : Pulled g target nodes blocked player σ
      ((f.found.toList.take next).flatMap g.predecessors.of) f)
    (hget : f.found.toList[next]? = some v) :
    ∃ f', (g.predecessors.of v).foldl (g.arena.pull nodes blocked player) f = f' ∧
      Pulled g target nodes blocked player σ
        ((f'.found.toList.take (next + 1)).flatMap g.predecessors.of) f' := by
  simp only [← g.admitted_all] at h ⊢
  exact Takes.pull.visit_found h hget

end Pulled

/-- What a finished search has found: the least set that holds the target and draws in every node of
the player or of chance with an edge into it and every other node whose edges inside `nodes` all lead
into it, as long as they are not blocked. -/
structure Attraction (g : Game W) (target nodes blocked : NodeSet) (player : Player) (σ : Strategy)
    (f : Front) : Prop extends Drawn g target nodes blocked player σ f where
  avoids : ∀ u ∈ nodes, u ∉ f.reached → u ∉ blocked → g.owner u = player ∨ g.owner u = .stochastic →
    ∀ t ∈ g.succs u, t ∉ f.reached
  escapes : ∀ u ∈ nodes, u ∉ f.reached → u ∉ blocked → g.owner u ≠ player →
    g.owner u ≠ .stochastic → (∃ t ∈ g.succs u, t ∈ nodes) → ∃ t ∈ g.succs u, t ∈ nodes ∧ t ∉ f.reached

section Finished

variable {g : Game W} {target nodes blocked : NodeSet} {player : Player} {σ : Strategy} {f : Front}

theorem Pulled.mem_admitted {admits : Nat → Nat × Nat → Bool} {es : List (Nat × Nat)} {u i t : Nat}
    (h : Pulled g target nodes blocked player σ es f) (hi : g.succ? u i = some t) (ht : t ∈ f.reached)
    (ha : admits t (u, i) = true) : (u, i) ∈ g.admitted admits f.found.toList := by
  have htg : t < g.size := h.range ▸ NodeSet.contains_lt ht
  have hin : (u, i) ∈ (g.predecessors.of t).filter (admits t) :=
    List.mem_filter.mpr ⟨(g.mem_predecessors_of htg).mpr hi, ha⟩
  exact List.mem_flatMap.mpr ⟨t, (h.mem_found t).mpr ht, hin⟩

/-- No edge of a node that one edge would draw in was taken in while it waits. -/
theorem Pulled.notMem_of_waiting {es : List (Nat × Nat)} (h : Pulled g target nodes blocked player σ es f)
    {u : Nat} (hu : u ∈ nodes) (hr : u ∉ f.reached) (hb : u ∉ blocked)
    (ho : g.owner u = player ∨ g.owner u = .stochastic) (i : Nat) : (u, i) ∉ es := by
  intro hi
  obtain ⟨hsum, hpos⟩ := h.waiting u hu hr hb
  have hcount : 0 < es.countP (·.1 = u) := List.countP_pos_iff.mpr ⟨(u, i), hi, by simp⟩
  rw [Game.needed, if_pos ho] at hsum hpos
  have := hpos Nat.one_ne_zero
  omega

/-- A node of the opponent that still waits has an edge that was not taken in. -/
theorem Pulled.exists_notMem_of_waiting {es : List (Nat × Nat)}
    (h : Pulled g target nodes blocked player σ es f) {u : Nat} (hu : u ∈ nodes) (hr : u ∉ f.reached)
    (hb : u ∉ blocked) (ho : g.owner u ≠ player) (hs : g.owner u ≠ .stochastic)
    (hex : ∃ t ∈ g.succs u, t ∈ nodes) : ∃ i t, g.succ? u i = some t ∧ t ∈ nodes ∧ (u, i) ∉ es := by
  by_contra hnone
  push Not at hnone
  obtain ⟨hsum, hpos⟩ := h.waiting u hu hr hb
  rw [Game.needed, if_neg (not_or.mpr ⟨ho, hs⟩)] at hsum hpos
  have hle : ((g.succs u).filter nodes.contains).length ≤ es.countP (·.1 = u) :=
    Game.length_filter_le_countP hnone
  have hzero : ((g.succs u).filter nodes.contains).length = 0 := by
    by_contra hne
    have := hpos hne
    omega
  obtain ⟨t, ht, htn⟩ := hex
  have hmem : t ∈ (g.succs u).filter nodes.contains := List.mem_filter.mpr ⟨ht, htn⟩
  rw [List.length_eq_zero_iff.mp hzero] at hmem
  exact List.not_mem_nil hmem

/-- When all edges into found nodes were taken in, a node that still waits has edges elsewhere. -/
private theorem Pulled.attraction
    (h : Pulled g target nodes blocked player σ (g.admitted (fun _ _ => true) f.found.toList) f) :
    Attraction g target nodes blocked player σ f := by
  refine { h.toDrawn with avoids := ?_, escapes := ?_ }
  · intro u hu hr hb ho t ht htr
    obtain ⟨i, hi⟩ := (g.mem_succs_iff u t).mp ht
    exact h.notMem_of_waiting hu hr hb ho i (h.mem_admitted hi htr rfl)
  · intro u hu hr hb ho hs hex
    obtain ⟨i, t, hi, htn, hout⟩ := h.exists_notMem_of_waiting hu hr hb ho hs hex
    exact ⟨t, g.mem_succs_of_succ? hi, htn, fun htr => hout (h.mem_admitted hi htr rfl)⟩

private theorem pulled_attract (hn : nodes.range = g.size) :
    Pulled g target nodes blocked player σ
      (g.admitted (fun _ _ => true) (g.arena.attract target nodes blocked player σ).found.toList)
      (g.arena.attract target nodes blocked player σ) := by
  have hseed : Pulled g target nodes blocked player σ [] (g.arena.seed target nodes player σ) :=
    Pulled.seed hn
  obtain ⟨f, hf, h⟩ := Takes.pull.drain g.size 0 (by simpa [Game.admitted] using hseed) (by omega)
  have heq : g.arena.attract target nodes blocked player σ = f := hf
  rw [heq]
  exact h

/-- The search for an attractor comes to its end. -/
theorem attraction_attract (hn : nodes.range = g.size) :
    Attraction g target nodes blocked player σ (g.arena.attract target nodes blocked player σ) :=
  (pulled_attract hn).attraction

theorem size_found_attract_le (hn : nodes.range = g.size) :
    (g.arena.attract target nodes blocked player σ).found.size ≤ g.size := by
  simpa using (pulled_attract hn).length_found_le

end Finished

namespace Attraction

variable {g : Game W} {target nodes blocked : NodeSet} {player : Player} {σ : Strategy} {f : Front}

/-- A node outside of an attractor that can stay inside `nodes` can stay outside of the attractor. -/
theorem exists_outside (h : Attraction g target nodes blocked player σ f) {u : Nat} (hu : u ∈ nodes)
    (hr : u ∉ f.reached) (hb : u ∉ blocked) (hex : ∃ t ∈ g.succs u, t ∈ nodes) :
    ∃ t ∈ g.succs u, t ∈ nodes ∧ t ∉ f.reached := by
  by_cases ho : g.owner u = player ∨ g.owner u = .stochastic
  · obtain ⟨t, ht, htn⟩ := hex
    exact ⟨t, ht, htn, h.avoids u hu hr hb ho t ht⟩
  · rw [not_or] at ho
    exact h.escapes u hu hr hb ho.1 ho.2 hex

/-- One edge into the attractor draws in a node of the player or of chance. -/
theorem mem_of_drawn (h : Attraction g target nodes blocked player σ f) {u t : Nat} (hu : u ∈ nodes)
    (hb : u ∉ blocked) (ho : g.owner u = player ∨ g.owner u = .stochastic) (ht : t ∈ g.succs u)
    (htr : t ∈ f.reached) : u ∈ f.reached := by
  by_contra hr
  exact h.avoids u hu hr hb ho t ht htr

/-- A node of the opponent is drawn in when it cannot stay inside `nodes` and avoid the attractor. -/
theorem mem_of_forced (h : Attraction g target nodes blocked player σ f) {u : Nat} (hu : u ∈ nodes)
    (hb : u ∉ blocked) (hp : g.owner u ≠ player) (hs : g.owner u ≠ .stochastic)
    (hex : ∃ t ∈ g.succs u, t ∈ nodes) (hall : ∀ t ∈ g.succs u, t ∈ nodes → t ∈ f.reached) :
    u ∈ f.reached := by
  by_contra hr
  obtain ⟨t, ht, htn, htr⟩ := h.escapes u hu hr hb hp hs hex
  exact htr (hall t ht htn)

/-- A node that was drawn in has an edge into the attractor. -/
theorem exists_reached (h : Attraction g target nodes blocked player σ f) {u : Nat}
    (hu : u ∈ f.reached) (ht : u ∉ target) : ∃ t ∈ g.succs u, t ∈ f.reached := by
  by_cases ho : g.owner u = player
  · obtain ⟨i, t, hi, htr, -⟩ := h.own u hu ht ho
    exact ⟨t, g.mem_succs_of_succ? hi, htr⟩
  by_cases hc : g.owner u = .stochastic
  · obtain ⟨t, hst, htr, -⟩ := h.chance u hu ht hc
    exact ⟨t, hst, htr⟩
  · obtain ⟨⟨t, hst, htn⟩, hall⟩ := h.other u hu ht ho hc
    exact ⟨t, hst, (hall t hst htn).1⟩

/-- The reached nodes are the least set with the closure rules of the search. -/
theorem subset_of_closed (h : Attraction g target nodes blocked player σ f) {B : Nat → Prop}
    (hseed : ∀ v ∈ nodes, v ∈ target → B v)
    (hown : ∀ u ∈ nodes, u ∉ blocked → g.owner u = player ∨ g.owner u = .stochastic →
      ∀ t ∈ g.succs u, B t → B u)
    (hother : ∀ u ∈ nodes, u ∉ blocked → g.owner u ≠ player → g.owner u ≠ .stochastic →
      (∃ t ∈ g.succs u, t ∈ nodes) → (∀ t ∈ g.succs u, t ∈ nodes → B t) → B u)
    {v : Nat} (hv : v ∈ f.reached) : B v := by
  induction hr : f.rank v using Nat.strong_induction_on generalizing v with
  | _ n ih =>
    subst hr
    have hn := h.inside v hv
    by_cases ht : v ∈ target
    · exact hseed v hn ht
    · have hb := h.free v hv ht
      by_cases hp : g.owner v = player
      · obtain ⟨i, t, hi, htr, hlt, -⟩ := h.own v hv ht hp
        exact hown v hn hb (Or.inl hp) t (g.mem_succs_of_succ? hi) (ih _ hlt htr rfl)
      · by_cases hs : g.owner v = .stochastic
        · obtain ⟨t, hst, htr, hlt⟩ := h.chance v hv ht hs
          exact hown v hn hb (Or.inr hs) t hst (ih _ hlt htr rfl)
        · obtain ⟨hex, hall⟩ := h.other v hv ht hp hs
          refine hother v hn hb hp hs hex fun t hst htn => ?_
          obtain ⟨htr, hlt⟩ := hall t hst htn
          exact ih _ hlt htr rfl

/-- Decisions that are recorded on the way do not change what is reached. -/
theorem reached_eq {σ' : Strategy} {f' : Front}
    (h : Attraction g target nodes blocked player σ f)
    (h' : Attraction g target nodes blocked player σ' f') : f.reached = f'.reached := by
  have hsub : ∀ {σ σ' : Strategy} {f f' : Front}, Attraction g target nodes blocked player σ f →
      Attraction g target nodes blocked player σ' f' → ∀ v ∈ f.reached, v ∈ f'.reached := by
    intro σ σ' f f' h h' v hv
    exact h.subset_of_closed h'.seeded (fun u hu hb ho t => h'.mem_of_drawn hu hb ho)
      (fun u hu hb hp hs => h'.mem_of_forced hu hb hp hs) hv
  refine NodeSet.ext_mem (h.range.trans h'.range.symm) fun v => ⟨hsub h h' v, hsub h' h v⟩

/-- The attractor of a target inside the attractor is the whole of it. -/
theorem reached_idem {σ' : Strategy} {f' : Front} (h : Attraction g target nodes blocked player σ f)
    (h' : Attraction g target f.reached blocked player σ' f') : f'.reached = f.reached := by
  refine NodeSet.ext_mem (h'.range.trans h.range.symm) fun v => ⟨h'.inside v, fun hv => ?_⟩
  refine h.subset_of_closed (fun w hw ht => h'.seeded w (h.seeded w hw ht) ht) ?_ ?_ hv
  · intro u hu hb ho t ht htr
    exact h'.mem_of_drawn (h.mem_of_drawn hu hb ho ht (h'.inside t htr)) hb ho ht htr
  · intro u hu hb hp hs hex hall
    have hur := h.mem_of_forced hu hb hp hs hex fun t ht htn => h'.inside t (hall t ht htn)
    refine h'.mem_of_forced hur hb hp hs ?_ fun t ht htr => hall t ht (h.inside t htr)
    obtain ⟨t, ht, htn⟩ := hex
    exact ⟨t, ht, h'.inside t (hall t ht htn)⟩

end Attraction

namespace Game

variable (g : Game W) (target : NodeSet) {nodes : NodeSet} (player : Player)

theorem attraction_strongAttractor (hn : nodes.range = g.size) :
    ∃ f, f.reached = g.arena.strongAttractor target nodes player ∧
      Attraction g target nodes (.empty 0) player (.blank 0) f :=
  ⟨_, rfl, attraction_attract hn⟩

/-- The search that records decisions on an attractor covers it. -/
theorem attraction_recordAttraction (hn : nodes.range = g.size)
    (hcover : g.arena.strongAttractor target nodes player = nodes) (σ : Strategy) :
    ∃ f, f.reached = nodes ∧ f.strategy = g.arena.recordAttraction target nodes player σ ∧
      Attraction g target nodes (.empty 0) player σ f := by
  have hrec : Attraction g target nodes (.empty 0) player σ _ := attraction_attract hn
  obtain ⟨f, hf, h⟩ := g.attraction_strongAttractor target player hn
  exact ⟨_, ((hrec.reached_eq h).trans hf).trans hcover, rfl, hrec⟩

theorem strongAttractor_idem (hn : nodes.range = g.size) :
    g.arena.strongAttractor target (g.arena.strongAttractor target nodes player) player =
      g.arena.strongAttractor target nodes player := by
  obtain ⟨f, hf, h⟩ := g.attraction_strongAttractor target player hn
  rw [← hf]
  obtain ⟨f', hf', h'⟩ := g.attraction_strongAttractor target player h.range
  rw [← hf']
  exact h.reached_idem h'

end Game
end OmegaGames
