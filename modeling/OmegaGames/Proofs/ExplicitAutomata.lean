import OmegaGames.Automaton.Parity
import OmegaGames.Proofs.Computations
import OmegaGames.Proofs.Interning

/-!
# The edges and labels of explicit automata

Construction files the edges by their sources and numbers their labels. The stored edges of a state
stand for the given ones in their order, since numbers keep their meaning while later labels are
entered. In a parity automaton every transition therefore has a priority, and a finite one, since
marks and declared colours fit into half a machine word.
-/
namespace OmegaGames

theorem exists_mem_of_forall₂ {α β : Type} {r : α → β → Prop} {as : List α} {bs : List β}
    (h : List.Forall₂ r as bs) : ∀ b ∈ bs, ∃ a ∈ as, r a b := by
  induction h with
  | nil => simp
  | cons hab _ ih =>
    intro b hb
    rcases List.mem_cons.mp hb with rfl | hb
    · exact ⟨_, List.mem_cons_self, hab⟩
    · obtain ⟨a, ha, hr⟩ := ih b hb
      exact ⟨a, List.mem_cons_of_mem _ ha, hr⟩

/-- Where an element stands in the concatenation of lists of one length. -/
theorem getElem?_flatMap_of_length {α β : Type} {f : α → List β} {m : Nat} {l : List α}
    (hlen : ∀ a ∈ l, (f a).length = m) {t j : Nat} {a : α} (ht : l[t]? = some a) (hj : j < m) :
    (l.flatMap f)[t * m + j]? = (f a)[j]? := by
  induction l generalizing t with
  | nil => simp at ht
  | cons b l ih =>
    have hb : (f b).length = m := hlen b List.mem_cons_self
    rw [List.flatMap_cons]
    cases t with
    | zero =>
      rw [List.getElem?_cons_zero, Option.some.injEq] at ht
      rw [← ht, Nat.zero_mul, Nat.zero_add, List.getElem?_append_left (by omega)]
    | succ t =>
      rw [List.getElem?_cons_succ] at ht
      have hpos : (t + 1) * m + j - m = t * m + j := by
        rw [Nat.succ_mul]
        omega
      rw [List.getElem?_append_right (by rw [hb, Nat.succ_mul]; omega), hb, hpos]
      exact ih (fun c hc => hlen c (List.mem_cons_of_mem b hc)) ht

namespace ExplicitAutomaton

variable {L : Type}

/-! ## Construction -/

private theorem getElem?_foldl_file (es : List (LabelledEdge L)) (t : Array (List (LabelledEdge L)))
    (q : Nat) :
    (es.foldl (fun t e => t.modify e.source (· ++ [e])) t)[q]? =
      t[q]?.map (· ++ es.filter (·.source = q)) := by
  induction es generalizing t with
  | nil => simp
  | cons e es ih =>
    rw [List.foldl_cons, ih, Array.getElem?_modify]
    by_cases hq : e.source = q
    · cases t[q]? <;> simp [hq]
    · simp [hq]

/-- The edges filed under a state are those that leave it. -/
theorem getElem?_fileEdges (n : Nat) (es : List (LabelledEdge L)) (q : Nat) :
    (fileEdges n es)[q]? = if q < n then some (es.filter (·.source = q)) else none := by
  rw [fileEdges, getElem?_foldl_file, Array.getElem?_replicate]
  by_cases hq : q < n
  · simp [hq]
  · simp [hq]

structure Stands (labels : Interner L) (e : LabelledEdge L) (stored : GuardedEdge) : Prop where
  guard : stored.guard = e.guard
  target : stored.target = e.target
  label : labels.get? stored.label = some e.label

theorem Stands.extend {labels labels' : Interner L} {e : LabelledEdge L} {stored : GuardedEdge}
    (hl : labels.Extends labels') (h : Stands labels e stored) : Stands labels' e stored :=
  { h with label := hl.get? h.label }

def Stored (labels : Interner L) : List (List (LabelledEdge L)) → List (List GuardedEdge) → Prop :=
  List.Forall₂ (List.Forall₂ (Stands labels))

theorem Stored.extend {labels labels' : Interner L} {ess : List (List (LabelledEdge L))}
    {stored : List (List GuardedEdge)} (hl : labels.Extends labels') (h : Stored labels ess stored) :
    Stored labels' ess stored :=
  h.imp fun _ _ hes => hes.imp fun _ _ he => he.extend hl

section Numbering

variable [DecidableEq L]

theorem numberLabels_stands (labels : Interner L) (es : List (LabelledEdge L)) :
    labels.Extends (numberLabels labels es).1 ∧
      List.Forall₂ (Stands (numberLabels labels es).1) es (numberLabels labels es).2 := by
  induction es generalizing labels with
  | nil => exact ⟨.refl labels, .nil⟩
  | cons e es ih =>
    obtain ⟨hrest, hes⟩ := ih (labels.intern e.label).1
    refine ⟨(labels.extends_intern e.label).trans hrest, .cons ?_ hes⟩
    exact { guard := rfl, target := rfl, label := hrest.get? (labels.get?_intern e.label) }

theorem stored_numberState {done : Interner L × Array (List GuardedEdge)}
    {ess : List (List (LabelledEdge L))} (h : Stored done.1 ess done.2.toList)
    (es : List (LabelledEdge L)) :
    Stored (numberState done es).1 (ess ++ [es]) (numberState done es).2.toList := by
  obtain ⟨hl, hes⟩ := numberLabels_stands done.1 es
  have happend : Stored (numberLabels done.1 es).1 (ess ++ [es])
      (done.2.toList ++ [(numberLabels done.1 es).2]) :=
    List.rel_append (h.extend hl) (.cons hes .nil)
  simpa [numberState] using happend

theorem stored_foldl_numberState (done : Interner L × Array (List GuardedEdge))
    (ess : List (List (LabelledEdge L))) (h : Stored done.1 ess done.2.toList)
    (rest : List (List (LabelledEdge L))) :
    Stored (rest.foldl numberState done).1 (ess ++ rest) (rest.foldl numberState done).2.toList := by
  induction rest generalizing done ess with
  | nil => simpa using h
  | cons es rest ih => simpa using ih _ _ (stored_numberState h es)

/-- The stored edges of a built automaton stand for the filed ones; the sink has none. -/
theorem stored_build (d : Description) (initial n : Nat) (es : List (LabelledEdge L)) (sinkLabel : L) :
    Stored (build d initial n es sinkLabel).labels ((fileEdges n es).toList ++ [[]])
      (build d initial n es sinkLabel).edges.toList := by
  have hfiled := stored_foldl_numberState ({}, #[]) [] (.nil : Stored {} [] []) (fileEdges n es).toList
  rw [List.nil_append, Array.foldl_toList] at hfiled
  have hlast := hfiled.extend (Interner.extends_intern _ sinkLabel)
  simpa [build, Stored] using List.rel_append hlast (.cons .nil .nil)

theorem label_sink_build (d : Description) (initial n : Nat) (es : List (LabelledEdge L))
    (sinkLabel : L) :
    (build d initial n es sinkLabel).labels.get? (build d initial n es sinkLabel).sink.label =
      some sinkLabel :=
  Interner.get?_intern _ sinkLabel

theorem exists_stands_of_mem {d : Description} {initial n : Nat} {es : List (LabelledEdge L)}
    {sinkLabel : L} {gs : List GuardedEdge} {e : GuardedEdge}
    (hgs : gs ∈ (build d initial n es sinkLabel).edges.toList) (he : e ∈ gs) :
    ∃ e' ∈ es, Stands (build d initial n es sinkLabel).labels e' e := by
  obtain ⟨es', hes', hstands⟩ := exists_mem_of_forall₂ (stored_build d initial n es sinkLabel) gs hgs
  obtain ⟨e', he', hs⟩ := exists_mem_of_forall₂ hstands e he
  refine ⟨e', ?_, hs⟩
  rcases List.mem_append.mp hes' with hfiled | hempty
  · obtain ⟨q, hq⟩ := List.mem_iff_getElem?.mp hfiled
    rw [Array.getElem?_toList, getElem?_fileEdges] at hq
    obtain ⟨-, hsome⟩ := Option.ite_none_right_eq_some.mp hq
    cases hsome
    exact (List.mem_filter.mp he').1
  · obtain rfl := List.mem_singleton.mp hempty
    cases he'

end Numbering

/-! ## The transition that is taken -/

/-- The transition of a state under a valuation if only one is taken: the first enabled edge, or else
the step to the sink. -/
def taken? (a : ExplicitAutomaton L) (v : Valuation) (q : Nat) : Option Transition :=
  a.edges[q]?.map fun es =>
    match es.find? fun e => e.guard.eval v with
    | some e => ⟨e.target, e.label⟩
    | none => a.sink

private theorem take_one_step (sink : Transition) (v : Valuation) (es : List GuardedEdge) :
    (step sink v es).take 1 =
      [match es.find? fun e => e.guard.eval v with
        | some e => ⟨e.target, e.label⟩
        | none => sink] := by
  rw [step, enabled, ← List.head?_filter]
  cases es.filter fun e => e.guard.eval v with
  | nil => rfl
  | cons e rest => rfl

/-- The first transition of a state is the one that is taken. -/
theorem query?_map_take_one (a : ExplicitAutomaton L) (v : Valuation) (q : Nat) :
    (a.query? v q).map (List.take 1) = (a.taken? v q).map fun t => [t] := by
  simp only [query?, taken?, Option.map_map]
  congr 1
  funext es
  exact take_one_step a.sink v es

/-- The transition taken has the number of the label of a stored edge or of the sink. -/
theorem label_taken? {a : ExplicitAutomaton L} {v : Valuation} {q : Nat} {t : Transition}
    (h : a.taken? v q = some t) :
    (∃ es ∈ a.edges.toList, ∃ e ∈ es, e.label = t.label) ∨ t.label = a.sink.label := by
  obtain ⟨es, hes, ht⟩ := Option.map_eq_some_iff.mp h
  cases hfind : es.find? fun e => e.guard.eval v with
  | some e =>
    rw [hfind] at ht
    subst ht
    refine Or.inl ⟨es, ?_, e, List.mem_of_find?_eq_some hfind, rfl⟩
    exact List.mem_of_getElem? (Array.getElem?_toList.trans hes)
  | none =>
    rw [hfind] at ht
    subst ht
    exact Or.inr rfl

end ExplicitAutomaton

/-! ## Priorities -/

namespace Description

def MarksFit (d : Description) : Prop :=
  ∀ e ∈ d.markedEdges, ∀ m ∈ e.marks, m < Text.halfWordLimit

end Description

theorem Text.readDigits?_lt {limit n : Nat} {ds : List Char} (h : readDigits? limit ds = some n) :
    n < limit := by
  rw [readDigits?] at h
  split at h
  · cases h
  · split at h
    · cases h
      assumption
    · cases h

theorem Text.readNumeral?_lt {limit n : Nat} {cs : List Char} (h : readNumeral? limit cs = some n) :
    n < limit := by
  rw [readNumeral?.eq_def] at h
  split at h
  · exact readDigits?_lt h
  · exact readDigits?_lt h

namespace ParityCondition

/-- The declared colours, where there are any, fit into half a machine word. -/
def ColorsFit : ParityCondition → Prop
  | parity _ _ colors => colors < Text.halfWordLimit
  | _ => True

theorem colorsFit_of_ofName? {words : List String} {c : ParityCondition}
    (h : ofName? words = some (.ok c)) : c.ColorsFit := by
  rw [ofName?.eq_def] at h
  split at h
  · dsimp only at h
    split at h
    · rename_i hcolors
      cases h
      exact Text.readNumeral?_lt hcolors
    · cases h
  · cases h

theorem ofAcceptance_ne_parity (a : Acceptance) (greatest even : Bool) (colors : Nat) :
    ofAcceptance a ≠ .ok (parity greatest even colors) := by
  intro h
  rw [ofAcceptance.eq_def] at h
  dsimp only at h
  split at h <;> try cases h
  split at h <;> cases h

theorem colorsFit_of_ofAcceptance {a : Acceptance} {c : ParityCondition}
    (h : ofAcceptance a = .ok c) : c.ColorsFit := by
  cases c with
  | parity greatest even colors => exact absurd h (ofAcceptance_ne_parity a greatest even colors)
  | _ => trivial

theorem colorsFit_of_ofDescription {d : Description} {c : ParityCondition}
    (h : ofDescription d = .ok c) : c.ColorsFit := by
  rw [ofDescription] at h
  cases hname : ofName? d.accName with
  | some r =>
    rw [hname] at h
    exact colorsFit_of_ofName? (hname.trans (congrArg some h))
  | none =>
    rw [hname] at h
    exact colorsFit_of_ofAcceptance h

theorem colorPriority?_le {greatest even : Bool} {colors p : Nat} {marks : List Nat}
    (hc : colors < Text.halfWordLimit) (hm : ∀ m ∈ marks, m < Text.halfWordLimit)
    (h : colorPriority? greatest even colors marks = some p) : p ≤ Text.halfWordLimit := by
  cases greatest with
  | true =>
    -- Counting downwards starts at most one above the colours.
    obtain ⟨-, hp⟩ := Option.ite_none_right_eq_some.mp h
    have hle : (if even = true then if colors % 2 = 0 then colors + 1 else colors
        else colors + colors % 2) ≤ Text.halfWordLimit := by
      split
      · split <;> omega
      · omega
    exact Option.some.inj hp ▸ Nat.le_trans (Nat.sub_le _ _) hle
  | false =>
    have hcolor : marks.head?.getD colors < Text.halfWordLimit := by
      cases marks with
      | nil => exact hc
      | cons m ms => exact hm m List.mem_cons_self
    simp only [colorPriority?, Bool.false_eq_true, if_false, Option.some.injEq] at h
    subst h
    split <;> omega

theorem priority?_le {c : ParityCondition} {marks : List Nat} {p : Nat} (hc : c.ColorsFit)
    (hm : ∀ m ∈ marks, m < Text.halfWordLimit) (h : c.priority? marks = some p) :
    p ≤ Text.halfWordLimit := by
  have htwo : 2 ≤ Text.halfWordLimit := by decide
  cases c with
  | constant accepting =>
    simp only [priority?, Option.some.injEq] at h
    split at h <;> omega
  | buchi n =>
    simp only [priority?, Option.some.injEq] at h
    split at h <;> omega
  | coBuchi n =>
    simp only [priority?, Option.some.injEq] at h
    split at h <;> omega
  | rabin fin inf =>
    simp only [priority?, Option.some.injEq] at h
    split at h
    · omega
    · split at h <;> omega
  | parity greatest even colors => exact colorPriority?_le hc hm h
  | generalizedBuchi sets => cases h

end ParityCondition

namespace ExplicitAutomaton

theorem label_copyEdges_le {sets : List Nat} {es : List MarkedEdge} {e : LabelledEdge Nat}
    (h : e ∈ copyEdges sets es) : e.label ≤ 1 := by
  obtain ⟨e', -, h⟩ := List.mem_flatMap.mp h
  obtain ⟨counter, -, rfl⟩ := List.mem_map.mp h
  simp only [copyEdge]
  split <;> simp

theorem label_relabel_le {c : ParityCondition} {es : List MarkedEdge} {les : List (LabelledEdge Nat)}
    (hc : c.ColorsFit) (hm : ∀ e ∈ es, ∀ m ∈ e.marks, m < Text.halfWordLimit)
    (h : relabel c es = .ok les) : ∀ e ∈ les, e.label ≤ Text.halfWordLimit := by
  intro e he
  obtain ⟨e', he', heq⟩ := exists_mem_of_forall₂ (forall₂_of_mapM_eq_ok h) e he
  split at heq
  · rename_i p hp
    cases heq
    exact ParityCondition.priority?_le hc (hm e' he') hp
  · cases heq

theorem parity_cases {d : Description} {a : ExplicitAutomaton Nat} (h : parity d = .ok a) :
    ∃ q c, initialState d = .ok q ∧ ParityCondition.ofDescription d = .ok c ∧
      ((∃ sets, c = .generalizedBuchi sets ∧
          a = build d (q * sets.length) (d.stateCount * sets.length) (copyEdges sets d.markedEdges) 1) ∨
        ∃ les, relabel c d.markedEdges = .ok les ∧ a = build d q d.stateCount les 1) := by
  obtain ⟨q, hq, h⟩ := exists_of_bind_eq_ok h
  obtain ⟨c, hc, h⟩ := exists_of_bind_eq_ok h
  refine ⟨q, c, hq, hc, ?_⟩
  cases c with
  | generalizedBuchi sets =>
    obtain ⟨-, -, h⟩ := exists_of_bind_eq_ok h
    cases h
    exact Or.inl ⟨sets, rfl, rfl⟩
  | _ =>
    obtain ⟨-, -, h⟩ := exists_of_bind_eq_ok h
    obtain ⟨les, hles, h⟩ := exists_of_bind_eq_ok h
    cases h
    exact Or.inr ⟨les, hles, rfl⟩

/-- A parity automaton is built from edges whose priorities are at most `2 ^ 32`. -/
theorem exists_build_of_parity {d : Description} {a : ExplicitAutomaton Nat} (hd : d.MarksFit)
    (h : parity d = .ok a) :
    ∃ initial n es, a = build d initial n es 1 ∧ ∀ e ∈ es, e.label ≤ Text.halfWordLimit := by
  obtain ⟨q, c, -, hc, ⟨sets, rfl, rfl⟩ | ⟨les, hles, rfl⟩⟩ := parity_cases h
  · refine ⟨_, _, _, rfl, fun e he => ?_⟩
    exact Nat.le_trans (label_copyEdges_le he) (by decide)
  · exact ⟨_, _, _, rfl, label_relabel_le (ParityCondition.colorsFit_of_ofDescription hc) hd hles⟩

/-- Every transition of a parity automaton has a priority that is at most `2 ^ 32`. -/
theorem exists_priority_of_taken? {d : Description} {a : ExplicitAutomaton Nat} (hd : d.MarksFit)
    (h : parity d = .ok a) {v : Valuation} {q : Nat} {t : Transition} (ht : a.taken? v q = some t) :
    ∃ p, a.labels.get? t.label = some p ∧ p ≤ Text.halfWordLimit := by
  obtain ⟨initial, n, es, rfl, hle⟩ := exists_build_of_parity hd h
  rcases label_taken? ht with ⟨gs, hgs, e, he, hlabel⟩ | hsink
  · obtain ⟨e', he', hstands⟩ := exists_stands_of_mem hgs he
    exact ⟨e'.label, hlabel ▸ hstands.label, hle e' he'⟩
  · exact ⟨1, hsink ▸ label_sink_build d initial n es 1, by decide⟩

end ExplicitAutomaton

end OmegaGames
