import OmegaGames.Proofs.DescribedAutomata
import OmegaGames.Proofs.LawfulAutomata

/-!
# What automata in lockstep answer

The numbers of states and labels depend on the order of the queries; what they stand for does not. A
query at a number stands for all choices of one transition from each component's own answer, the first
component changing slowest, and tuples that have numbers keep them. So a product can be asked in any
order, and a question that has been asked before gets the same numbers again.
-/
namespace OmegaGames

namespace Lockstep

/-! ## Choices -/

section Choices

variable {α : Type} {xss : List (List α)}

def choiceCount (xss : List (List α)) : Nat := xss.foldr (fun xs n => xs.length * n) 1

/-- The element that choice `i` takes from list `k`, if the first list changes slowest: the choices from
the lists after `k` are run through before the element changes. -/
def chosen? (xss : List (List α)) (i k : Nat) : Option α :=
  xss[k]?.bind fun xs => xs[i / choiceCount (xss.drop (k + 1)) % xs.length]?

theorem length_choices (xss : List (List α)) : (choices xss).length = choiceCount xss := by
  induction xss with
  | nil => rfl
  | cons xs rest ih => simp [choices, choiceCount, List.length_flatMap, ih]

theorem forall₂_mem_of_mem_choices {c : List α} (h : c ∈ choices xss) : List.Forall₂ (· ∈ ·) c xss := by
  induction xss generalizing c with
  | nil =>
    rw [choices, List.mem_singleton] at h
    rw [h]
    exact .nil
  | cons xs rest ih =>
    obtain ⟨x, hx, htail⟩ := List.mem_flatMap.mp h
    obtain ⟨c', hc', rfl⟩ := List.mem_map.mp htail
    exact .cons hx (ih hc')

/-- The digits of `i` below list `k` come back after as many choices as there are from there on. -/
theorem choiceCount_drop_mul_dvd {k : Nat} {xs : List α} (h : xss[k]? = some xs) :
    choiceCount (xss.drop (k + 1)) * xs.length ∣ choiceCount xss := by
  induction xss generalizing k with
  | nil => simp at h
  | cons ys rest ih =>
    cases k with
    | zero =>
      rw [List.getElem?_cons_zero, Option.some.injEq] at h
      simp [choiceCount, h, Nat.mul_comm]
    | succ k =>
      rw [List.getElem?_cons_succ] at h
      exact Nat.dvd_mul_left_of_dvd (ih h) ys.length

theorem chosen?_cons_succ (xs : List α) (rest : List (List α)) (i k : Nat) :
    chosen? (xs :: rest) i (k + 1) = chosen? rest (i % choiceCount rest) k := by
  simp only [chosen?, List.getElem?_cons_succ, List.drop_succ_cons]
  cases hys : rest[k]? with
  | none => rfl
  | some ys =>
    simp only [Option.bind_some]
    rw [← Nat.mod_mul_right_div_self i, ← Nat.mod_mul_right_div_self (i % _),
      Nat.mod_mod_of_dvd i (choiceCount_drop_mul_dvd hys)]

/-- Where a choice stands says what it takes from each list. -/
theorem getElem?_of_choices {i : Nat} {ys : List α} (h : (choices xss)[i]? = some ys) (k : Nat) :
    ys[k]? = chosen? xss i k := by
  induction xss generalizing i ys k with
  | nil =>
    have hys : ys ∈ choices ([] : List (List α)) := List.mem_of_getElem? h
    rw [choices, List.mem_singleton] at hys
    simp [hys, chosen?]
  | cons xs rest ih =>
    have hi : i < xs.length * choiceCount rest := by
      have hlt := (List.getElem?_eq_some_iff.mp h).1
      rwa [length_choices] at hlt
    have hcount : 0 < choiceCount rest := Nat.pos_of_mul_pos_left (Nat.zero_lt_of_lt hi)
    have hquot : i / choiceCount rest < xs.length := Nat.div_lt_of_lt_mul (Nat.mul_comm _ _ ▸ hi)
    have hsplit : i / choiceCount rest * choiceCount rest + i % choiceCount rest = i := Nat.div_add_mod' i _
    -- The choices with one first element stand together, so `i` splits into two digits.
    have hblock : ∀ x ∈ xs, ((choices rest).map (x :: ·)).length = choiceCount rest := by
      intro x _
      rw [List.length_map, length_choices]
    rw [choices, ← hsplit, getElem?_flatMap_of_length hblock (List.getElem?_eq_getElem hquot)
      (Nat.mod_lt i hcount), List.getElem?_map, Option.map_eq_some_iff] at h
    obtain ⟨ys, hys, rfl⟩ := h
    cases k with
    | zero => simp [chosen?, Nat.mod_eq_of_lt hquot]
    | succ k => rw [List.getElem?_cons_succ, chosen?_cons_succ, ih hys]

end Choices

/-! ## Numbers and what they stand for -/

variable {L : Type} {p p' p'' : Lockstep L} {components : List (ExplicitAutomaton L)}
  {v : Valuation} {q : Nat} {tuple : List Nat} {steps : List (List Transition)} {ts : List Transition}

/-- A transition stands for one transition of each component. -/
structure Denotes (p : Lockstep L) (t : Transition) (c : List Transition) : Prop where
  tuple?_eq : p.tuple? t.state = some (c.map (·.state))
  label?_eq : Automaton.label? p t.label = some (c.map (·.label))

/-- Numbers that stand for something in the first product stand for the same in the second one. -/
structure Grows (p p' : Lockstep L) : Prop where
  components_eq : p'.components = p.components
  states : p.states.Extends p'.states
  labels : p.labels.Extends p'.labels

theorem Grows.refl (p : Lockstep L) : p.Grows p := ⟨rfl, .refl _, .refl _⟩

theorem Grows.trans (h : p.Grows p') (h' : p'.Grows p'') : p.Grows p'' :=
  ⟨h'.components_eq.trans h.components_eq, h.states.trans h'.states, h.labels.trans h'.labels⟩

theorem Grows.denotes (h : p.Grows p') {t : Transition} {c : List Transition} (ht : p.Denotes t c) :
    p'.Denotes t c :=
  ⟨h.states.get? ht.tuple?_eq, h.labels.get? ht.label?_eq⟩

/-- Answers do not say what numbers stand for. -/
theorem grows_of_answers (p : Lockstep L) (answers : List ((Valuation × Nat) × List Transition)) :
    p.Grows { p with answers } :=
  ⟨rfl, .refl _, .refl _⟩

theorem grows_number (p : Lockstep L) (c : List Transition) : p.Grows (p.number c).1 :=
  ⟨rfl, p.states.extends_intern _, p.labels.extends_intern _⟩

theorem denotes_number (p : Lockstep L) (c : List Transition) :
    (p.number c).1.Denotes (p.number c).2 c :=
  ⟨p.states.get?_intern _, p.labels.get?_intern _⟩

theorem grows_numberAll (p : Lockstep L) (cs : List (List Transition)) : p.Grows (p.numberAll cs).1 := by
  induction cs generalizing p with
  | nil => exact .refl p
  | cons c cs ih => exact (p.grows_number c).trans (ih _)

theorem denotes_numberAll (p : Lockstep L) (cs : List (List Transition)) :
    List.Forall₂ (p.numberAll cs).1.Denotes (p.numberAll cs).2 cs := by
  induction cs generalizing p with
  | nil => exact .nil
  | cons c cs ih => exact .cons ((grows_numberAll _ cs).denotes (p.denotes_number c)) (ih _)

/-! ## The components' own answers -/

def ownAnswers (components : List (ExplicitAutomaton L)) (v : Valuation) (tuple : List Nat) :
    List (Option (List Transition)) :=
  List.zipWith (fun c q => c.query? v q) components tuple

theorem mapM_query?_cases (components : List (ExplicitAutomaton L)) (v : Valuation) (tuple : List Nat) :
    none ∈ ownAnswers components v tuple ∧
        (components.zip tuple).mapM (fun cq => cq.1.query? v cq.2) = none ∨
      ∃ steps, ownAnswers components v tuple = steps.map some ∧
        (components.zip tuple).mapM (fun cq => cq.1.query? v cq.2) = some steps := by
  induction components generalizing tuple with
  | nil => exact Or.inr ⟨[], rfl, rfl⟩
  | cons c components ih =>
    cases tuple with
    | nil => exact Or.inr ⟨[], rfl, rfl⟩
    | cons q tuple =>
      rw [ownAnswers, List.zipWith_cons_cons, ← ownAnswers, List.zip_cons_cons, List.mapM_cons]
      cases hquery : c.query? v q with
      | none => exact Or.inl ⟨List.mem_cons_self, rfl⟩
      | some ts =>
        rcases ih tuple with ⟨hmem, hnone⟩ | ⟨steps, hown, hsome⟩
        · exact Or.inl ⟨List.mem_cons_of_mem _ hmem, by simp [hnone]⟩
        · exact Or.inr ⟨ts :: steps, by simp [hown], by simp [hsome]⟩

/-- The joint transitions are the choices from the components' own answers, if all of them answer. -/
theorem joint?_cases (v : Valuation) (h : p.tuple? q = some tuple) :
    none ∈ ownAnswers p.components v tuple ∧ p.joint? v q = none ∨
      ∃ steps, ownAnswers p.components v tuple = steps.map some ∧ p.joint? v q = some (choices steps) := by
  rw [joint?, h, Option.bind_eq_bind, Option.bind_some]
  rcases mapM_query?_cases p.components v tuple with ⟨hmem, hnone⟩ | ⟨steps, hown, hsome⟩
  · exact Or.inl ⟨hmem, by rw [hnone]; rfl⟩
  · exact Or.inr ⟨steps, hown, by rw [hsome]; rfl⟩

theorem exists_of_joint? {cs : List (List Transition)} (h : p.joint? v q = some cs) :
    ∃ tuple steps, p.tuple? q = some tuple ∧ ownAnswers p.components v tuple = steps.map some ∧
      cs = choices steps := by
  obtain ⟨tuple, htuple, -⟩ := Option.bind_eq_some_iff.mp h
  rcases joint?_cases v htuple with ⟨-, hnone⟩ | ⟨steps, hown, hsome⟩
  · rw [hnone] at h
    cases h
  · rw [hsome] at h
    exact ⟨tuple, steps, htuple, hown, (Option.some.inj h).symm⟩

/-- A state that the component has, unless its own transitions lead out of it. -/
def StateOf (c : ExplicitAutomaton L) (q : Nat) : Prop := c.Closed → q < c.edges.size

theorem forall₂_stateOf_of_mem_choices (hlen : tuple.length = components.length)
    (hown : ownAnswers components v tuple = steps.map some) {c : List Transition} (hc : c ∈ choices steps) :
    List.Forall₂ StateOf components (c.map (·.state)) := by
  replace hc := forall₂_mem_of_mem_choices hc
  induction components generalizing tuple steps c with
  | nil =>
    cases steps with
    | nil =>
      cases hc
      exact .nil
    | cons _ _ => simp [ownAnswers] at hown
  | cons a components ih =>
    cases tuple with
    | nil => simp at hlen
    | cons q tuple =>
      rw [ownAnswers, List.zipWith_cons_cons, ← ownAnswers] at hown
      cases hc with
      | nil => simp at hown
      | cons ht hc =>
        rw [List.map_cons, List.cons.injEq] at hown
        exact .cons (fun hclosed => hclosed.state_lt hown.1 _ ht) (ih (by simpa using hlen) hown.2 hc)

theorem none_notMem_ownAnswers (hclosed : ∀ c ∈ components, c.Closed)
    (h : List.Forall₂ StateOf components tuple) : none ∉ ownAnswers components v tuple := by
  induction h with
  | nil => simp [ownAnswers]
  | cons hq _ ih =>
    rw [List.forall_mem_cons] at hclosed
    obtain ⟨ts, hts⟩ := ExplicitAutomaton.exists_query? v (hq hclosed.1)
    rw [ownAnswers, List.zipWith_cons_cons, ← ownAnswers, hts]
    simpa using ih hclosed.2

/-! ## Tables that are right -/

/-- An answer stands for all choices of one transition from each component's own answer. -/
def Answers (p : Lockstep L) (v : Valuation) (q : Nat) (ts : List Transition) : Prop :=
  ∃ tuple steps, p.tuple? q = some tuple ∧ ownAnswers p.components v tuple = steps.map some ∧
    List.Forall₂ p.Denotes ts (choices steps)

theorem Answers.grows (h : p.Answers v q ts) (hp : p.Grows p') : p'.Answers v q ts := by
  obtain ⟨tuple, steps, htuple, hown, hts⟩ := h
  refine ⟨tuple, steps, hp.states.get? htuple, ?_, hts.imp fun _ _ => hp.denotes⟩
  rw [hp.components_eq, hown]

/-- The tables hold nothing but what the components give, and nothing twice. -/
structure Consistent (p : Lockstep L) : Prop where
  states : p.states.Distinct
  labels : p.labels.Distinct
  stateOf : ∀ tuple ∈ p.states.values.toList, List.Forall₂ StateOf p.components tuple
  answers : ∀ v q ts, p.answers.lookup (v, q) = some ts → p.Answers v q ts

theorem Consistent.number (h : p.Consistent) {c : List Transition}
    (hc : List.Forall₂ StateOf p.components (c.map (·.state))) : (p.number c).1.Consistent where
  states := h.states.intern _
  labels := h.labels.intern _
  stateOf := by
    intro tuple htuple
    rcases Interner.mem_intern.mp htuple with hold | rfl
    · exact h.stateOf tuple hold
    · exact hc
  answers v q ts hlookup := (h.answers v q ts hlookup).grows (p.grows_number c)

theorem Consistent.numberAll (h : p.Consistent) {cs : List (List Transition)}
    (hcs : ∀ c ∈ cs, List.Forall₂ StateOf p.components (c.map (·.state))) :
    (p.numberAll cs).1.Consistent := by
  induction cs generalizing p with
  | nil => exact h
  | cons c cs ih =>
    rw [List.forall_mem_cons] at hcs
    exact ih (h.number hcs.1) hcs.2

theorem Consistent.record (h : p.Consistent) (hts : p.Answers v q ts) :
    ({ p with answers := ((v, q), ts) :: p.answers } : Lockstep L).Consistent where
  states := h.states
  labels := h.labels
  stateOf := h.stateOf
  answers v' q' ts' hlookup := by
    have hgrows := p.grows_of_answers (((v, q), ts) :: p.answers)
    rw [List.lookup_cons] at hlookup
    split at hlookup
    · rename_i heq
      obtain ⟨rfl, rfl⟩ := Prod.mk.inj (eq_of_beq heq)
      obtain rfl := Option.some.inj hlookup
      exact hts.grows hgrows
    · exact (h.answers v' q' ts' hlookup).grows hgrows

theorem Consistent.query? (h : p.Consistent) (hquery : p.query? v q = some (p', ts)) :
    p'.Consistent ∧ p.Grows p' ∧ p'.Answers v q ts := by
  rw [Lockstep.query?] at hquery
  cases hlookup : p.answers.lookup (v, q) with
  | some ts' =>
    rw [hlookup] at hquery
    cases hquery
    exact ⟨h, .refl p, h.answers v q ts hlookup⟩
  | none =>
    rw [hlookup] at hquery
    obtain ⟨cs, hcs, hquery⟩ := Option.bind_eq_some_iff.mp hquery
    obtain ⟨tuple, steps, htuple, hown, rfl⟩ := exists_of_joint? hcs
    have hlen := (h.stateOf tuple (Interner.mem_of_get? htuple)).length_eq.symm
    have hgrows := p.grows_numberAll (choices steps)
    have hnumbered : (p.numberAll (choices steps)).1.Consistent :=
      h.numberAll fun c hc => forall₂_stateOf_of_mem_choices hlen hown hc
    have hanswers : (p.numberAll (choices steps)).1.Answers v q (p.numberAll (choices steps)).2 :=
      ⟨tuple, steps, hgrows.states.get? htuple, by rw [hgrows.components_eq, hown], p.denotes_numberAll _⟩
    cases hquery
    exact ⟨hnumbered.record hanswers, hgrows.trans (grows_of_answers _ _), hanswers.grows (grows_of_answers _ _)⟩

/-- A query at a state is answered if the components answer. -/
theorem query?_cases_of_tuple? (v : Valuation) (htuple : p.tuple? q = some tuple) :
    none ∈ ownAnswers p.components v tuple ∧ p.query? v q = none ∨
      ∃ p' ts, p.query? v q = some (p', ts) := by
  rw [Lockstep.query?]
  cases hlookup : p.answers.lookup (v, q) with
  | some ts => exact Or.inr ⟨p, ts, rfl⟩
  | none =>
    rcases joint?_cases v htuple with ⟨hmem, hnone⟩ | ⟨steps, -, hsome⟩
    · exact Or.inl ⟨hmem, by simp [hnone]⟩
    · exact Or.inr ⟨_, _, by rw [hsome]; rfl⟩

theorem Consistent.queried (h : p.Consistent) (hp : Automaton.Queried p p') :
    p'.Consistent ∧ p.Grows p' := by
  induction hp with
  | refl => exact ⟨h, .refl p⟩
  | tail _ hstep ih =>
    obtain ⟨v, q, ts, hquery⟩ := hstep
    obtain ⟨hconsistent, hgrows, -⟩ := ih.1.query? hquery
    exact ⟨hconsistent, ih.2.trans hgrows⟩

/-! ## Products from the start -/

theorem ofComponents_eq_ok (hne : components ≠ [])
    (heq : ∀ c ∈ components, ∀ c' ∈ components, c.expressions = c'.expressions) :
    ofComponents components = .ok ⟨components, ⟨#[components.map (·.initial)]⟩, {}, []⟩ := by
  cases components with
  | nil => exact absurd rfl hne
  | cons c components =>
    have hsame : ∀ c' ∈ components, c'.expressions = c.expressions :=
      fun c' hc' => heq c' (List.mem_cons_of_mem c hc') c List.mem_cons_self
    simpa [ofComponents, Interner.intern, Interner.find?] using hsame

theorem consistent_start (components : List (ExplicitAutomaton L)) :
    (⟨components, ⟨#[components.map (·.initial)]⟩, {}, []⟩ : Lockstep L).Consistent where
  states := by simp [Interner.Distinct]
  labels := by simp [Interner.Distinct]
  stateOf := by
    intro tuple htuple
    obtain rfl : tuple = components.map (·.initial) := by simpa using htuple
    rw [List.forall₂_map_right_iff, List.forall₂_same]
    exact fun c _ hclosed => hclosed.initial_lt
  answers := by simp

/-- Place by place, transitions stand for the choices from the components' own answers, the first
component changing slowest. -/
structure ListsChoices (p : Lockstep L) (steps : List (List Transition)) (ts : List Transition) : Prop where
  length_eq : ts.length = choiceCount steps
  denotes : ∀ i t, ts[i]? = some t →
    ∃ choice, p.Denotes t choice ∧ choice.length = steps.length ∧ ∀ k, choice[k]? = chosen? steps i k

theorem listsChoices_of_forall₂ (h : List.Forall₂ p.Denotes ts (choices steps)) :
    p.ListsChoices steps ts where
  length_eq := by rw [h.length_eq, length_choices]
  denotes i t ht := by
    obtain ⟨hi, rfl⟩ := List.getElem?_eq_some_iff.mp ht
    have hi' : i < (choices steps).length := h.length_eq ▸ hi
    have hc := List.getElem?_eq_getElem hi'
    exact ⟨(choices steps)[i], h.get hi hi',
      (forall₂_mem_of_mem_choices (List.getElem_mem hi')).length_eq, getElem?_of_choices hc⟩

/-- What a product shows of its components, whatever it has been asked before. -/
structure Faithful (components : List (ExplicitAutomaton L)) (p : Lockstep L) : Prop where
  tuple?_inj : ∀ q q' tuple, p.tuple? q = some tuple → p.tuple? q' = some tuple → q = q'
  label?_inj : ∀ l l' ls, Automaton.label? p l = some ls → Automaton.label? p l' = some ls → l = l'
  length_eq : ∀ q tuple, p.tuple? q = some tuple → tuple.length = components.length
  /-- A state is answered at unless one of the components does not answer. -/
  answer : ∀ v q tuple, p.tuple? q = some tuple →
    none ∈ ownAnswers components v tuple ∧ Automaton.query? p v q = none ∨
      ∃ steps p' ts, ownAnswers components v tuple = steps.map some ∧
        Automaton.query? p v q = some (p', ts) ∧ p'.ListsChoices steps ts
  /-- Components that their transitions do not leave always answer. -/
  answered : (∀ c ∈ components, c.Closed) → ∀ v q tuple, p.tuple? q = some tuple →
    none ∉ ownAnswers components v tuple
  /-- A question gets the same numbers again. -/
  again : ∀ v q p' ts, Automaton.query? p v q = some (p', ts) → ∀ p'', Automaton.Queried p' p'' →
    Automaton.query? p'' v q = some (p'', ts)
  /-- Numbers keep their meaning. -/
  keeps : ∀ p', Automaton.Queried p p' →
    (∀ q tuple, p.tuple? q = some tuple → p'.tuple? q = some tuple) ∧
      ∀ l ls, Automaton.label? p l = some ls → Automaton.label? p' l = some ls

theorem Consistent.faithful (h : p.Consistent) : Faithful p.components p where
  tuple?_inj _ _ _ hq hq' := h.states.get?_inj hq hq'
  label?_inj _ _ _ hl hl' := h.labels.get?_inj hl hl'
  length_eq _ _ htuple := (h.stateOf _ (Interner.mem_of_get? htuple)).length_eq.symm
  answer v q tuple htuple := by
    rcases query?_cases_of_tuple? v htuple with hnone | ⟨p', ts, hquery⟩
    · exact Or.inl hnone
    · obtain ⟨-, hgrows, tuple', steps, htuple', hown, hts⟩ := h.query? hquery
      obtain rfl : tuple = tuple' := Option.some.inj ((hgrows.states.get? htuple).symm.trans htuple')
      rw [hgrows.components_eq] at hown
      exact Or.inr ⟨steps, p', ts, hown, hquery, listsChoices_of_forall₂ hts⟩
  answered hclosed v _ _ htuple :=
    none_notMem_ownAnswers hclosed (h.stateOf _ (Interner.mem_of_get? htuple))
  again v q p' ts hquery p'' hp := hp.query?_eq (LawfulAutomaton.query?_again hquery)
  keeps p' hp := by
    have hgrows := (h.queried hp).2
    exact ⟨fun q tuple => hgrows.states.get?, fun l ls => hgrows.labels.get?⟩

/-- A product of automata over the same expressions shows the same whatever it has been asked before:
its numbers stand for different tuples, its answers for the choices from the components' own ones. -/
theorem faithful_of_queried (hne : components ≠ [])
    (heq : ∀ c ∈ components, ∀ c' ∈ components, c.expressions = c'.expressions) :
    ∃ p, ofComponents components = .ok p ∧
      p.tuple? (Automaton.initial p) = some (components.map (·.initial)) ∧
      ∀ p', Automaton.Queried p p' → Faithful components p' := by
  refine ⟨_, ofComponents_eq_ok hne heq, rfl, ?_⟩
  intro p' hp
  obtain ⟨hconsistent, hgrows⟩ := (consistent_start components).queried hp
  have hfaithful := hconsistent.faithful
  rwa [hgrows.components_eq] at hfaithful

end Lockstep

/-- Goes on while a proposition holds, and may settle at any time. -/
def ExplicitAutomaton.waiting : ExplicitAutomaton Nat where
  expressions := ["a"]
  initial := 0
  deterministic := false
  edges := #[[⟨.ap 0, 0, 0⟩, ⟨.ap 0, 1, 1⟩], [⟨.always, 1, 1⟩], []]
  labels := ⟨#[1, 0]⟩
  sink := ⟨2, 0⟩

/-- With two successors of each of its two components. -/
theorem Lockstep.faithful_waiting :
    ([.waiting, .waiting] : List (ExplicitAutomaton Nat)) ≠ [] ∧
    (∀ c ∈ [ExplicitAutomaton.waiting, .waiting], ∀ c' ∈ [ExplicitAutomaton.waiting, .waiting],
      c.expressions = c'.expressions) ∧
    (∀ c ∈ [ExplicitAutomaton.waiting, .waiting], c.Closed) ∧
    ∃ p, ofComponents [ExplicitAutomaton.waiting, .waiting] = .ok p ∧
      p.tuple? (Automaton.initial p) = some [0, 0] ∧
      ∀ p', Automaton.Queried p p' → Faithful [ExplicitAutomaton.waiting, .waiting] p' := by
  have hne : ([.waiting, .waiting] : List (ExplicitAutomaton Nat)) ≠ [] := by simp
  have heq : ∀ c ∈ [ExplicitAutomaton.waiting, .waiting], ∀ c' ∈ [ExplicitAutomaton.waiting, .waiting],
      c.expressions = c'.expressions := by simp
  have hclosed : ExplicitAutomaton.waiting.Closed := ⟨by decide, by decide, by decide⟩
  exact ⟨hne, heq, by simpa using hclosed, faithful_of_queried hne heq⟩

end OmegaGames
