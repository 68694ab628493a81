import OmegaGames.Proofs.DescribedAutomata

/-!
# Waiting for one set after the other

A condition that asks for several sets becomes a counter. Copy `c` of a state waits for the set with
number `c`, and an edge that completes a round has priority zero and starts the next one. Every path of
the description has exactly one path above it from each copy. A closed walk of the copies has an edge of
priority zero exactly if every set is seen on it: without such an edge the counter never falls, so it
stays where it is and its set is not seen; with one, the sets from the counter on are seen before the
first round is complete and the sets below the counter after the last one.
-/
namespace OmegaGames

inductive IsPath {E : Type} (out : Nat → List E) (target : E → Nat) : Nat → List E → Nat → Prop
  | nil (x : Nat) : IsPath out target x [] x
  | cons {x y : Nat} {e : E} {es : List E} (h : e ∈ out x) (hes : IsPath out target (target e) es y) :
      IsPath out target x (e :: es) y

abbrev Description.Path (d : Description) : Nat → List OutgoingEdge → Nat → Prop :=
  IsPath d.edgesFrom (·.edge.target)

abbrev ExplicitAutomaton.Path {L : Type} (a : ExplicitAutomaton L) : Nat → List GuardedEdge → Nat → Prop :=
  IsPath a.edgesFrom (·.target)

/-- A path along the stored edges of `k` copies, each together with the described edge at its position. -/
abbrev ExplicitAutomaton.PathOver {L : Type} (a : ExplicitAutomaton L) (d : Description) (k : Nat) :
    Nat → List (OutgoingEdge × GuardedEdge) → Nat → Prop :=
  IsPath (fun x => (d.edgesFrom (x / k)).zip (a.edgesFrom x)) (·.2.target)

theorem ExplicitAutomaton.PathOver.path {L : Type} {a : ExplicitAutomaton L} {d : Description} {k x y : Nat}
    {ps : List (OutgoingEdge × GuardedEdge)} (h : a.PathOver d k x ps y) :
    a.Path x (ps.map Prod.snd) y := by
  induction h with
  | nil x => exact .nil x
  | cons hmem _ ih => exact .cons (List.of_mem_zip hmem).2 ih

/-! ## Copies of states -/

theorem copy_div {k c : Nat} (q : Nat) (hc : c < k) : (q * k + c) / k = q := by
  rw [Nat.add_comm, Nat.add_mul_div_right _ _ (by omega), Nat.div_eq_of_lt hc, Nat.zero_add]

theorem copy_mod {k c : Nat} (q : Nat) (hc : c < k) : (q * k + c) % k = c := by
  rw [Nat.add_comm, Nat.add_mul_mod_self_right, Nat.mod_eq_of_lt hc]

theorem copy_lt {k c q n : Nat} (hq : q < n) (hc : c < k) : q * k + c < n * k := by
  have hrow : (q + 1) * k ≤ n * k := Nat.mul_le_mul_right k hq
  rw [Nat.succ_mul] at hrow
  omega

namespace ExplicitAutomaton

/-! ## The edges of a copy -/

theorem source_copyEdge (sets : List Nat) (e : MarkedEdge) (c : Nat) :
    (copyEdge sets e c).source = e.source * sets.length + c := by
  simp only [copyEdge]
  split <;> rfl

theorem filter_copies (sets : List Nat) (e : MarkedEdge) {q c : Nat} (hc : c < sets.length) :
    ((List.range sets.length).map (copyEdge sets e)).filter (·.source = q * sets.length + c) =
      if e.source = q then [copyEdge sets e c] else [] := by
  rw [List.filter_map]
  by_cases hq : e.source = q
  · have hcounter : (List.range sets.length).filter
        ((fun l : LabelledEdge Nat => decide (l.source = q * sets.length + c)) ∘ copyEdge sets e) = [c] := by
      have hpred : ((fun l : LabelledEdge Nat => decide (l.source = q * sets.length + c)) ∘
          copyEdge sets e) = fun i => decide (i = c) := by
        funext i
        simp [source_copyEdge, hq]
      rw [hpred, List.filter_eq, List.count_eq_one_of_mem List.nodup_range (List.mem_range.mpr hc)]
      rfl
    rw [hcounter, if_pos hq]
    rfl
  · rw [if_neg hq, List.map_eq_nil_iff, List.filter_eq_nil_iff]
    intro i hi heq
    have hlt := List.mem_range.mp hi
    have heq : e.source * sets.length + i = q * sets.length + c := by
      simpa [source_copyEdge] using heq
    -- The number of a copy determines its state.
    apply hq
    rw [← copy_div e.source hlt, heq, copy_div q hc]

/-- The edges of a copy come from the edges of its state, in their order. -/
theorem filter_copyEdges (d : Description) (sets : List Nat) {q c : Nat} (hc : c < sets.length) :
    (copyEdges sets d.markedEdges).filter (·.source = q * sets.length + c) =
      (d.edgesFrom q).map fun e => copyEdge sets e.marked c := by
  have hfilter : ∀ es : List MarkedEdge,
      (copyEdges sets es).filter (·.source = q * sets.length + c) =
        (es.filter (·.source = q)).map (copyEdge sets · c) := by
    intro es
    induction es with
    | nil => rfl
    | cons e es ih =>
      rw [copyEdges] at ih ⊢
      rw [List.flatMap_cons, List.filter_append, ih, filter_copies sets e hc, List.filter_cons]
      by_cases hq : e.source = q
      · simp [hq]
      · simp [hq]
  rw [hfilter, d.filter_markedEdges q, List.map_map]
  rfl

/-! ## The counter -/

theorem advance_spec (marks : List Nat) (sets : List Nat) (next : Nat) :
    next ≤ advance marks sets next ∧
      (∀ i s, next + i < advance marks sets next → sets[i]? = some s → s ∈ marks) ∧
      ∀ i s, next + i = advance marks sets next → sets[i]? = some s → s ∉ marks := by
  induction sets generalizing next with
  | nil => simp [advance]
  | cons n sets ih =>
    obtain ⟨hle, hseen, hunseen⟩ := ih (next + 1)
    by_cases hn : n ∈ marks
    · have hadvance : advance marks (n :: sets) next = advance marks sets (next + 1) := by
        simp [advance, hn]
      rw [hadvance]
      refine ⟨by omega, ?_, ?_⟩
      · intro i s hi hs
        cases i with
        | zero =>
          cases hs
          exact hn
        | succ i => exact hseen i s (by omega) hs
      · intro i s hi hs
        cases i with
        | zero => omega
        | succ i => exact hunseen i s (by omega) hs
    · have hadvance : advance marks (n :: sets) next = next := by simp [advance, hn]
      rw [hadvance]
      refine ⟨Nat.le_refl _, by omega, ?_⟩
      intro i s hi hs
      obtain rfl : i = 0 := by omega
      cases hs
      exact hn

/-- What an edge with some marks does to the counter, and the priority it has: it completes the round,
or the counter passes the sets that are marked up to one that is not. -/
inductive CounterStep (sets : List Nat) (carries : Nat → Bool) (c : Nat) : Nat → Nat → Prop
  | complete (h : ∀ i s, c ≤ i → sets[i]? = some s → carries s = true) : CounterStep sets carries c 0 0
  | wait {c' : Nat} (hle : c ≤ c') (hlt : c' < sets.length)
      (hpassed : ∀ i s, c ≤ i → i < c' → sets[i]? = some s → carries s = true)
      (hmissing : ∀ s, sets[c']? = some s → carries s = false) : CounterStep sets carries c c' 1

/-- A copied edge leads to a copy of its target, as the counter says. -/
theorem exists_counterStep (sets : List Nat) (e : OutgoingEdge) {c : Nat} (hc : c < sets.length) :
    ∃ c' p, CounterStep sets e.carries c c' p ∧ c' < sets.length ∧
      copyEdge sets e.marked c = ⟨e.state.id * sets.length + c, e.edge.guard,
        e.edge.target * sets.length + c', p⟩ := by
  obtain ⟨hle, hseen, hunseen⟩ := advance_spec e.marked.marks (sets.drop c) c
  have hbound := advance_le e.marked.marks (sets.drop c) c
  rw [List.length_drop] at hbound
  have hmem : ∀ s, s ∈ e.marked.marks ↔ e.carries s = true := by
    intro s
    rw [← e.contains_marks_marked, List.contains_iff_mem]
  have hpassed : ∀ i s, c ≤ i → i < advance e.marked.marks (sets.drop c) c → sets[i]? = some s →
      e.carries s = true := by
    intro i s hi hlt hs
    rw [← hmem]
    apply hseen (i - c) s (by omega)
    rw [List.getElem?_drop, Nat.add_sub_cancel' hi, hs]
  by_cases hround : advance e.marked.marks (sets.drop c) c = sets.length
  · refine ⟨0, 0, .complete ?_, by omega, ?_⟩
    · intro i s hi hs
      have hlt := (List.getElem?_eq_some_iff.mp hs).1
      exact hpassed i s hi (by omega) hs
    · simp only [copyEdge]
      rw [if_pos hround]
      rfl
  · refine ⟨_, 1, .wait hle (by omega) hpassed ?_, by omega, ?_⟩
    · intro s hs
      rw [← Bool.not_eq_true, ← hmem]
      apply hunseen (advance e.marked.marks (sets.drop c) c - c) s (by omega)
      rw [List.getElem?_drop, Nat.add_sub_cancel' hle, hs]
    · simp only [copyEdge]
      rw [if_neg hround]
      rfl

/-! ## The automaton of the copies -/

def copies (d : Description) (sets : List Nat) (q₀ : Nat) : ExplicitAutomaton Nat :=
  build d (q₀ * sets.length) (d.stateCount * sets.length) (copyEdges sets d.markedEdges) 1

structure Copied (a : ExplicitAutomaton Nat) (sets : List Nat) (x : Nat) (e : OutgoingEdge)
    (g : GuardedEdge) (c' p : Nat) : Prop where
  step : CounterStep sets e.carries (x % sets.length) c' p
  lt : c' < sets.length
  guard : g.guard = e.edge.guard
  target : g.target = e.edge.target * sets.length + c'
  label : a.labels.get? g.label = some p

section Copies

variable {d : Description} {sets : List Nat} {q₀ : Nat}

theorem forall₂_copies (q₀ : Nat) {x : Nat} (hx : x < d.stateCount * sets.length) :
    List.Forall₂ (fun e g => Stands (copies d sets q₀).labels (copyEdge sets (OutgoingEdge.marked e)
      (x % sets.length)) g) (d.edgesFrom (x / sets.length)) ((copies d sets q₀).edgesFrom x) := by
  have hk : 0 < sets.length := Nat.pos_of_mul_pos_left (Nat.zero_lt_of_lt hx)
  have hfilter := filter_copyEdges d sets (q := x / sets.length) (Nat.mod_lt x hk)
  rw [Nat.div_add_mod'] at hfilter
  have hstored := forall₂_edgesFrom_build d (q₀ * sets.length) _ (copyEdges sets d.markedEdges) 1 hx
  rw [hfilter] at hstored
  exact List.forall₂_map_left_iff.mp hstored

theorem exists_copied {x : Nat} (hx : x < d.stateCount * sets.length) {e : OutgoingEdge} {g : GuardedEdge}
    (h : (e, g) ∈ (d.edgesFrom (x / sets.length)).zip ((copies d sets q₀).edgesFrom x)) :
    ∃ c' p, Copied (copies d sets q₀) sets x e g c' p := by
  have hk : 0 < sets.length := Nat.pos_of_mul_pos_left (Nat.zero_lt_of_lt hx)
  have hstands := List.forall₂_zip (forall₂_copies q₀ hx) h
  obtain ⟨c', p, hstep, hlt, heq⟩ := exists_counterStep sets e (Nat.mod_lt x hk)
  rw [heq] at hstands
  exact ⟨c', p, hstep, hlt, hstands.guard, hstands.target, hstands.label⟩

theorem Copied.target_div {a : ExplicitAutomaton Nat} {x c' p : Nat} {e : OutgoingEdge} {g : GuardedEdge}
    (h : Copied a sets x e g c' p) : g.target / sets.length = e.edge.target := by
  rw [h.target, copy_div _ h.lt]

theorem Copied.target_mod {a : ExplicitAutomaton Nat} {x c' p : Nat} {e : OutgoingEdge} {g : GuardedEdge}
    (h : Copied a sets x e g c' p) : g.target % sets.length = c' := by
  rw [h.target, copy_mod _ h.lt]

theorem target_lt_of_mem (hd : d.InRange) {x : Nat} (hx : x < d.stateCount * sets.length)
    {e : OutgoingEdge} {g : GuardedEdge}
    (h : (e, g) ∈ (d.edgesFrom (x / sets.length)).zip ((copies d sets q₀).edgesFrom x)) :
    g.target < d.stateCount * sets.length := by
  obtain ⟨c', p, hcopied⟩ := exists_copied hx h
  rw [hcopied.target]
  exact copy_lt (hd.of_mem_edgesFrom (List.of_mem_zip h).1).2 hcopied.lt

/-! ### Lifting and projecting paths -/

theorem exists_above {x : Nat} (hx : x < d.stateCount * sets.length) {e : OutgoingEdge}
    (he : e ∈ d.edgesFrom (x / sets.length)) :
    ∃ g, (e, g) ∈ (d.edgesFrom (x / sets.length)).zip ((copies d sets q₀).edgesFrom x) := by
  have hlen := (forall₂_copies q₀ hx).length_eq
  rw [← List.map_fst_zip (Nat.le_of_eq hlen)] at he
  obtain ⟨r, hr, rfl⟩ := List.mem_map.mp he
  exact ⟨r.2, hr⟩

theorem exists_below {x : Nat} (hx : x < d.stateCount * sets.length) {g : GuardedEdge}
    (hg : g ∈ (copies d sets q₀).edgesFrom x) :
    ∃ e, (e, g) ∈ (d.edgesFrom (x / sets.length)).zip ((copies d sets q₀).edgesFrom x) := by
  have hlen := (forall₂_copies q₀ hx).length_eq
  rw [← List.map_snd_zip (Nat.le_of_eq hlen.symm)] at hg
  obtain ⟨r, hr, rfl⟩ := List.mem_map.mp hg
  exact ⟨r.1, hr⟩

theorem above_unique {x : Nat} (hx : x < d.stateCount * sets.length) {e : OutgoingEdge}
    {g g' : GuardedEdge}
    (h : (e, g) ∈ (d.edgesFrom (x / sets.length)).zip ((copies d sets q₀).edgesFrom x))
    (h' : (e, g') ∈ (d.edgesFrom (x / sets.length)).zip ((copies d sets q₀).edgesFrom x)) : g = g' := by
  have hs := List.forall₂_zip (forall₂_copies q₀ hx) h
  have hs' := List.forall₂_zip (forall₂_copies q₀ hx) h'
  -- Both have the label of the same copied edge, and a label has one number.
  have hlabel : g.label = g'.label := (distinct_labels_build _ _ _ _ _).get?_inj hs.label hs'.label
  have hguard : g.guard = g'.guard := hs.guard.trans hs'.guard.symm
  have htarget : g.target = g'.target := hs.target.trans hs'.target.symm
  cases g
  cases g'
  cases hguard
  cases htarget
  cases hlabel
  rfl

/-- A path of the description has a path above it from every copy. -/
theorem exists_lift (q₀ : Nat) (hd : d.InRange) {q r : Nat} {es : List OutgoingEdge}
    (h : d.Path q es r) {x : Nat} (hx : x < d.stateCount * sets.length) (hq : x / sets.length = q) :
    ∃ ps y, (copies d sets q₀).PathOver d sets.length x ps y ∧ y / sets.length = r ∧
      ps.map Prod.fst = es ∧ ∀ p ∈ ps, p.2.guard = p.1.edge.guard := by
  induction h generalizing x with
  | nil q => exact ⟨[], x, .nil x, hq, rfl, by simp⟩
  | cons he _ ih =>
    subst hq
    obtain ⟨g, hg⟩ := exists_above hx he
    obtain ⟨c', p, hcopied⟩ := exists_copied hx hg
    obtain ⟨ps, y, hpath, hy, hfst, hguards⟩ := ih (target_lt_of_mem hd hx hg) hcopied.target_div
    refine ⟨_ :: ps, y, .cons hg hpath, hy, by rw [List.map_cons, hfst], ?_⟩
    exact List.forall_mem_cons.mpr ⟨hcopied.guard, hguards⟩

/-- Two paths above the same path, from the same copy, are equal. -/
theorem lift_unique (hd : d.InRange) {x y y' : Nat} (hx : x < d.stateCount * sets.length)
    {ps ps' : List (OutgoingEdge × GuardedEdge)} (h : (copies d sets q₀).PathOver d sets.length x ps y)
    (h' : (copies d sets q₀).PathOver d sets.length x ps' y')
    (hfst : ps'.map Prod.fst = ps.map Prod.fst) : ps' = ps := by
  induction h generalizing ps' with
  | nil x => simpa using hfst
  | @cons x y r ps hr _ ih =>
    cases h' with
    | nil => simp at hfst
    | @cons _ _ r' ps' hr' hps' =>
      obtain ⟨e, g⟩ := r
      obtain ⟨e', g'⟩ := r'
      simp only [List.map_cons, List.cons.injEq] at hfst
      obtain ⟨rfl, hfst⟩ := hfst
      obtain rfl := above_unique hx hr hr'
      rw [ih (target_lt_of_mem hd hx hr) hps' hfst]

theorem target_lt_of_path (hd : d.InRange) {x y : Nat} (hx : x < d.stateCount * sets.length)
    {gs : List GuardedEdge} (h : (copies d sets q₀).Path x gs y) :
    y < d.stateCount * sets.length ∧ ∀ g ∈ gs, g.target < d.stateCount * sets.length := by
  induction h with
  | nil x => exact ⟨hx, by simp⟩
  | cons hg _ ih =>
    obtain ⟨e, he⟩ := exists_below hx hg
    have hlt := target_lt_of_mem hd hx he
    exact ⟨(ih hlt).1, List.forall_mem_cons.mpr ⟨hlt, (ih hlt).2⟩⟩

theorem exists_projection (hd : d.InRange) {x y : Nat} (hx : x < d.stateCount * sets.length)
    {gs : List GuardedEdge} (h : (copies d sets q₀).Path x gs y) :
    ∃ ps, (copies d sets q₀).PathOver d sets.length x ps y ∧ ps.map Prod.snd = gs ∧
      d.Path (x / sets.length) (ps.map Prod.fst) (y / sets.length) := by
  induction h with
  | nil x => exact ⟨[], .nil x, rfl, .nil _⟩
  | @cons x y g gs hg _ ih =>
    obtain ⟨e, he⟩ := exists_below hx hg
    obtain ⟨c', p, hcopied⟩ := exists_copied hx he
    obtain ⟨ps, hpath, hsnd, hbelow⟩ := ih (target_lt_of_mem hd hx he)
    rw [hcopied.target_div] at hbelow
    exact ⟨(e, g) :: ps, .cons he hpath, by rw [List.map_cons, hsnd],
      .cons (List.of_mem_zip he).1 hbelow⟩

/-! ### Rounds -/

def Seen (ps : List (OutgoingEdge × GuardedEdge)) (s : Nat) : Prop := ∃ p ∈ ps, p.1.carries s = true

theorem seen_cons_iff {p : OutgoingEdge × GuardedEdge} {ps : List (OutgoingEdge × GuardedEdge)} {s : Nat} :
    Seen (p :: ps) s ↔ p.1.carries s = true ∨ Seen ps s := by
  simp [Seen]

/-- Along a path without a complete round the counter does not fall and passes only sets that are seen.
If it has not moved, the set it waits for is not seen. -/
structure Waited (sets : List Nat) (ps : List (OutgoingEdge × GuardedEdge)) (c c' : Nat) : Prop where
  le : c ≤ c'
  passed : ∀ i s, c ≤ i → i < c' → sets[i]? = some s → Seen ps s
  missing : c = c' → ∀ s, sets[c]? = some s → ¬ Seen ps s

/-- Along a path with a complete round the sets from the first counter on are seen, and those below the
last one. -/
structure Rounded (sets : List Nat) (ps : List (OutgoingEdge × GuardedEdge)) (c c' : Nat) : Prop where
  above : ∀ i s, c ≤ i → sets[i]? = some s → Seen ps s
  below : ∀ i s, i < c' → sets[i]? = some s → Seen ps s

theorem Waited.nil (c : Nat) : Waited sets [] c c :=
  ⟨Nat.le_refl c, by omega, by simp [Seen]⟩

variable {p : OutgoingEdge × GuardedEdge} {ps : List (OutgoingEdge × GuardedEdge)} {c c₁ c' : Nat}

theorem Waited.cons (hle : c ≤ c₁)
    (hpassed : ∀ i s, c ≤ i → i < c₁ → sets[i]? = some s → p.1.carries s = true)
    (hmissing : ∀ s, sets[c₁]? = some s → p.1.carries s = false) (h : Waited sets ps c₁ c') :
    Waited sets (p :: ps) c c' := by
  refine ⟨Nat.le_trans hle h.le, ?_, ?_⟩
  · intro i s hi hlt hs
    rw [seen_cons_iff]
    by_cases hc₁ : i < c₁
    · exact Or.inl (hpassed i s hi hc₁ hs)
    · exact Or.inr (h.passed i s (Nat.le_of_not_lt hc₁) hlt hs)
  · rintro rfl s hs
    obtain rfl : c = c₁ := Nat.le_antisymm hle h.le
    rw [seen_cons_iff, hmissing s hs]
    simpa using h.missing rfl s hs

theorem Rounded.cons (hpassed : ∀ i s, c ≤ i → i < c₁ → sets[i]? = some s → p.1.carries s = true)
    (h : Rounded sets ps c₁ c') : Rounded sets (p :: ps) c c' := by
  refine ⟨?_, fun i s hi hs => seen_cons_iff.mpr (Or.inr (h.below i s hi hs))⟩
  intro i s hi hs
  rw [seen_cons_iff]
  by_cases hc₁ : i < c₁
  · exact Or.inl (hpassed i s hi hc₁ hs)
  · exact Or.inr (h.above i s (Nat.le_of_not_lt hc₁) hs)

theorem Rounded.of_complete (hround : ∀ i s, c ≤ i → sets[i]? = some s → p.1.carries s = true)
    (hbelow : ∀ i s, i < c' → sets[i]? = some s → Seen ps s) : Rounded sets (p :: ps) c c' :=
  ⟨fun i s hi hs => seen_cons_iff.mpr (Or.inl (hround i s hi hs)),
    fun i s hi hs => seen_cons_iff.mpr (Or.inr (hbelow i s hi hs))⟩

/-- The priorities along a path, and what they say about the sets that are seen. -/
theorem exists_priorities (hd : d.InRange) {x y : Nat} (hx : x < d.stateCount * sets.length)
    (h : (copies d sets q₀).PathOver d sets.length x ps y) :
    ∃ priorities : List Nat, ps.map (fun r => (copies d sets q₀).labels.get? r.2.label) =
        priorities.map some ∧
      ((∀ p ∈ priorities, p = 1) ∧ Waited sets ps (x % sets.length) (y % sets.length) ∨
        0 ∈ priorities ∧ Rounded sets ps (x % sets.length) (y % sets.length)) := by
  induction h with
  | nil x => exact ⟨[], rfl, Or.inl ⟨by simp, .nil _⟩⟩
  | @cons x y r ps hr _ ih =>
    obtain ⟨e, g⟩ := r
    obtain ⟨c₁, p, hcopied⟩ := exists_copied hx hr
    obtain ⟨priorities, hlabels, hrest⟩ := ih (target_lt_of_mem hd hx hr)
    simp only [hcopied.target_mod] at hrest
    refine ⟨p :: priorities, by rw [List.map_cons, List.map_cons, hlabels, hcopied.label], ?_⟩
    cases hcopied.step with
    | complete hround =>
      -- The next round starts at the first set, so all sets below the last counter are seen after this edge.
      right
      refine ⟨List.mem_cons_self, .of_complete hround ?_⟩
      rcases hrest with ⟨-, hwaited⟩ | ⟨-, hrounded⟩
      · exact fun i s hi hs => hwaited.passed i s (Nat.zero_le i) hi hs
      · exact hrounded.below
    | wait hle _ hpassed hmissing =>
      rcases hrest with ⟨hone, hwaited⟩ | ⟨hzero, hrounded⟩
      · exact Or.inl ⟨List.forall_mem_cons.mpr ⟨rfl, hone⟩, hwaited.cons hle hpassed hmissing⟩
      · exact Or.inr ⟨List.mem_cons_of_mem _ hzero, hrounded.cons hpassed⟩

/-- On a closed walk the least priority tells whether all sets are seen. -/
theorem least_of_closed (hd : d.InRange) {x : Nat} (hx : x < d.stateCount * sets.length) (hps : ps ≠ [])
    (h : (copies d sets q₀).PathOver d sets.length x ps x) :
    ∃ (priorities : List Nat) (least : Nat),
      ps.map (fun r => (copies d sets q₀).labels.get? r.2.label) = priorities.map some ∧
      priorities.min? = some least ∧
      (least = 0 ∧ (∀ s ∈ sets, Seen ps s) ∨ least = 1 ∧ ¬ ∀ s ∈ sets, Seen ps s) := by
  obtain ⟨priorities, hlabels, ⟨hone, hwaited⟩ | ⟨hzero, hrounded⟩⟩ := exists_priorities hd hx h
  · refine ⟨priorities, 1, hlabels, ?_, Or.inr ⟨rfl, ?_⟩⟩
    · have hne : priorities ≠ [] := by
        rintro rfl
        exact hps (List.map_eq_nil_iff.mp hlabels)
      obtain ⟨p, hp⟩ := List.exists_mem_of_ne_nil priorities hne
      rw [List.min?_eq_some_iff]
      exact ⟨hone p hp ▸ hp, fun b hb => Nat.le_of_eq (hone b hb).symm⟩
    · -- The counter is back where it was without a round, so its set has not been seen.
      intro hall
      have hlt : x % sets.length < sets.length :=
        Nat.mod_lt x (Nat.pos_of_mul_pos_left (Nat.zero_lt_of_lt hx))
      exact hwaited.missing rfl _ (List.getElem?_eq_getElem hlt) (hall _ (List.getElem_mem hlt))
  · refine ⟨priorities, 0, hlabels, List.min?_eq_some_iff.mpr ⟨hzero, fun b _ => Nat.zero_le b⟩, ?_⟩
    left
    refine ⟨rfl, fun s hs => ?_⟩
    obtain ⟨i, hi⟩ := List.mem_iff_getElem?.mp hs
    -- Sets from the counter on are seen before the first round ends, those below it after the last one.
    by_cases hc : i < x % sets.length
    · exact hrounded.below i s hc hi
    · exact hrounded.above i s (Nat.le_of_not_lt hc) hi

end Copies

/-! ## Conjunctions -/

theorem withPriorities_eq_copyEdges (n : Nat) (es : List MarkedEdge) :
    withPriorities (fun marks => if marks.contains n then 0 else 1) es = copyEdges [n] es := by
  induction es with
  | nil => rfl
  | cons e es ih =>
    rw [withPriorities, copyEdges] at ih
    rw [withPriorities, copyEdges, List.map_cons, List.flatMap_cons, ih]
    by_cases hn : n ∈ e.marks
    · simp [copyEdge, advance, List.range_succ, hn]
    · simp [copyEdge, advance, List.range_succ, hn]

theorem infSets?_cons_inf (n : Nat) (cs : List Acceptance) :
    ParityCondition.infSets? (.inf n :: cs) = (ParityCondition.infSets? cs).map (n :: ·) := by
  rw [ParityCondition.infSets?, List.mapM_cons, ← ParityCondition.infSets?]
  cases ParityCondition.infSets? cs <;> rfl

theorem infSets?_eq_some_iff {cs : List Acceptance} {sets : List Nat} :
    ParityCondition.infSets? cs = some sets ↔ cs = sets.map .inf := by
  induction cs generalizing sets with
  | nil => cases sets <;> simp [ParityCondition.infSets?]
  | cons c cs ih =>
    cases c with
    | inf n =>
      rw [infSets?_cons_inf]
      cases sets with
      | nil => simp
      | cons n' sets => simp [ih, and_comm]
    | _ => cases sets <;> simp [ParityCondition.infSets?, List.mapM_cons]

theorem parity_eq_ok_iff_of_infs {d : Description} {a : ExplicitAutomaton Nat} {sets : List Nat}
    (hname : ∀ order favored colors, d.accName ≠ ["parity", order, favored, colors])
    (hsets : sets ≠ []) (hacc : d.acceptance = Acceptance.combine .and (sets.map .inf)) :
    parity d = .ok a ↔
      ∃ q, d.start = [q] ∧ d.stateCount * sets.length ≤ stateLimit ∧ a = copies d sets q := by
  have hcondition := ofDescription_eq hname
  rw [hacc] at hcondition
  -- A single set is not given a counter; its two priorities are those of one copy.
  match sets with
  | [n] =>
    have hp : ∀ marks, (ParityCondition.buchi n).priority? marks =
        some (if marks.contains n then 0 else 1) := fun _ => rfl
    rw [parity_eq_ok_iff_of_priorities hcondition hp, withPriorities_eq_copyEdges]
    simp [copies]
  | n :: n' :: sets =>
    have hgeneral : ParityCondition.ofAcceptance (.and ((n :: n' :: sets).map .inf)) =
        .ok (.generalizedBuchi (n :: n' :: sets)) := by
      have hsome := infSets?_eq_some_iff.mpr (Eq.refl ((n :: n' :: sets).map Acceptance.inf))
      rw [ParityCondition.ofAcceptance, hsome]
      · simp
      · simp
    exact parity_eq_ok_iff_of_generalizedBuchi (hcondition.trans hgeneral)

/-- The copies of a description behave as the description does, and their priorities tell whether all
sets are seen. -/
structure Degeneralizes (a : ExplicitAutomaton Nat) (d : Description) (sets : List Nat) : Prop where
  initial : ∃ q, d.start = [q] ∧ a.initial = q * sets.length
  /-- The sink is the state after all copies. -/
  size : a.edges.size = d.stateCount * sets.length + 1 ∧ a.sink.state = d.stateCount * sets.length
  /-- A path has exactly one path above it from each copy of its first state. -/
  lifts : ∀ q es r, q < d.stateCount → d.Path q es r → ∀ c < sets.length,
    ∃ ps, ∃ c' < sets.length, a.PathOver d sets.length (q * sets.length + c) ps (r * sets.length + c') ∧
      a.Path (q * sets.length + c) (ps.map Prod.snd) (r * sets.length + c') ∧
      ps.map Prod.fst = es ∧ (∀ p ∈ ps, p.2.guard = p.1.edge.guard) ∧
      ∀ ps' y, a.PathOver d sets.length (q * sets.length + c) ps' y → ps'.map Prod.fst = es → ps' = ps
  /-- Paths of the copies stay among them, and have paths of the description below them. -/
  projects : ∀ x gs y, x < d.stateCount * sets.length → a.Path x gs y →
    y < d.stateCount * sets.length ∧ (∀ g ∈ gs, g.target < d.stateCount * sets.length) ∧
      ∃ ps, a.PathOver d sets.length x ps y ∧ ps.map Prod.snd = gs ∧
        d.Path (x / sets.length) (ps.map Prod.fst) (y / sets.length)
  /-- The least priority of a closed walk is zero if all sets are seen on it, and else one. -/
  least : ∀ x ps, x < d.stateCount * sets.length → ps ≠ [] → a.PathOver d sets.length x ps x →
    ∃ (priorities : List Nat) (p : Nat), ps.map (fun r => a.labels.get? r.2.label) = priorities.map some ∧
      priorities.min? = some p ∧
      (p = 0 ∧ (∀ s ∈ sets, Seen ps s) ∨ p = 1 ∧ ¬ ∀ s ∈ sets, Seen ps s)

theorem degeneralizes_copies {d : Description} (hd : d.InRange) (sets : List Nat) {q₀ : Nat}
    (hstart : d.start = [q₀]) : (copies d sets q₀).Degeneralizes d sets where
  initial := ⟨q₀, hstart, rfl⟩
  size := ⟨size_build _ _ _ _ _, rfl⟩
  lifts := by
    intro q es r hq hpath c hc
    obtain ⟨ps, y, hps, hy, hfst, hguards⟩ :=
      exists_lift q₀ hd hpath (copy_lt hq hc) (copy_div q hc)
    have hend : r * sets.length + y % sets.length = y := by rw [← hy, Nat.div_add_mod']
    refine ⟨ps, y % sets.length, Nat.mod_lt y (Nat.zero_lt_of_lt hc), ?_, ?_, hfst, hguards, ?_⟩
    · rwa [hend]
    · rw [hend]
      exact PathOver.path hps
    · intro ps' y' hps' hfst'
      exact lift_unique hd (copy_lt hq hc) hps hps' (hfst'.trans hfst.symm)
  projects := by
    intro x gs y hx hpath
    obtain ⟨hy, htargets⟩ := target_lt_of_path hd hx hpath
    exact ⟨hy, htargets, exists_projection hd hx hpath⟩
  least := fun x ps hx hps h => least_of_closed hd hx hps h

/-- A condition that asks for some sets is turned into an automaton with a copy of each state for each
set, if there is one initial state and room for the copies. -/
theorem degeneralizes_of_parity (source : String) (d : Description) (sets : List Nat)
    (hread : Hoa.read source = .ok d) (hsets : sets ≠ [])
    (hacc : d.acceptance = Acceptance.combine .and (sets.map .inf))
    (hname : ∀ order favored colors, d.accName ≠ ["parity", order, favored, colors]) :
    ((∃ a, parity d = .ok a) ↔
      (∃ q, d.start = [q]) ∧ d.stateCount * sets.length ≤ stateLimit) ∧
    ∀ a, parity d = .ok a → a.Degeneralizes d sets := by
  constructor
  · constructor
    · rintro ⟨a, ha⟩
      obtain ⟨q, hq, hroom, -⟩ := (parity_eq_ok_iff_of_infs hname hsets hacc).mp ha
      exact ⟨⟨q, hq⟩, hroom⟩
    · rintro ⟨⟨q, hq⟩, hroom⟩
      exact ⟨_, (parity_eq_ok_iff_of_infs hname hsets hacc).mpr ⟨q, hq, hroom, rfl⟩⟩
  · intro a ha
    obtain ⟨q, hq, -, rfl⟩ := (parity_eq_ok_iff_of_infs hname hsets hacc).mp ha
    exact degeneralizes_copies (Hoa.inRange_of_read hread) sets hq

end ExplicitAutomaton

/-- Three sets to wait for, one of them twice, with a mark on the state and one on an edge. -/
def Hoa.repetition : String :=
  "HOA: v1\nStates: 1\nStart: 0\nAP: 1 \"a\"\nAcceptance: 2 Inf(0) & Inf(1) & Inf(0)\n--BODY--\n" ++
    "State: 0 \x7b0\x7d\n[0] 0 \x7b1\x7d\n[!0] 0\n--END--\n"

def Acceptance.infs? : Acceptance → Option (List Nat)
  | .and cs => ParityCondition.infSets? cs
  | _ => none

theorem Acceptance.eq_and_of_infs? {c : Acceptance} {sets : List Nat} (h : c.infs? = some sets) :
    c = .and (sets.map .inf) := by
  cases c with
  | and cs => rw [ExplicitAutomaton.infSets?_eq_some_iff.mp h]
  | _ => cases h

namespace ExplicitAutomaton

theorem degeneralizes_repetition : ∃ (d : Description) (a : ExplicitAutomaton Nat),
    Hoa.read Hoa.repetition = .ok d ∧ d.accName = [] ∧
    d.acceptance = Acceptance.combine .and ([0, 1, 0].map .inf) ∧ parity d = .ok a ∧ a.edges.size = 4 ∧
    a.Degeneralizes d [0, 1, 0] := by
  have hrun : ((Hoa.read Hoa.repetition).toOption.bind fun d => (parity d).toOption.map fun a =>
      (d.accName, a.edges.size, d.acceptance.infs?)) = some ([], 4, some [0, 1, 0]) := by decide +kernel
  obtain ⟨d, hd, hrun⟩ := Option.bind_eq_some_iff.mp hrun
  obtain ⟨a, ha, hrun⟩ := Option.map_eq_some_iff.mp hrun
  simp only [Prod.mk.injEq] at hrun
  obtain ⟨hname, hsize, hinfs⟩ := hrun
  have hacc : d.acceptance = Acceptance.combine .and ([0, 1, 0].map .inf) := Acceptance.eq_and_of_infs? hinfs
  have hread := eq_ok_of_toOption hd
  have hparity := eq_ok_of_toOption ha
  exact ⟨d, a, hread, hname, hacc, hparity, hsize,
    (degeneralizes_of_parity Hoa.repetition d [0, 1, 0] hread (by simp) hacc (by simp [hname])).2 a hparity⟩

end ExplicitAutomaton

end OmegaGames
