import OmegaGames.Proofs.Mentions
import OmegaGames.Proofs.SpacedReading

/-!
# Texts of guards

A guard is written with parentheses only where the precedence of the operators would give another tree, and is
read back from that, however the symbols are spaced. This needs conjunctions and disjunctions of at least two
parts, since a part on its own has no sign next to it. The reader has a level for each operator. A level takes
what the level below it takes and, if more than one of them come with the sign between them, the combination.
-/
namespace OmegaGames

open Text

namespace Guard

/-- Every conjunction and disjunction has at least two parts. -/
inductive Branching : Guard → Prop
  | always : Branching .always
  | never : Branching .never
  | ap (n : Nat) : Branching (.ap n)
  | not {g : Guard} (h : Branching g) : Branching (.not g)
  | and {gs : List Guard} (hlen : 2 ≤ gs.length) (h : ∀ g ∈ gs, Branching g) : Branching (.and gs)
  | or {gs : List Guard} (hlen : 2 ≤ gs.length) (h : ∀ g ∈ gs, Branching g) : Branching (.or gs)

section

variable {g : Guard} {gs : List Guard}

@[simp] theorem branching_not_iff : (Guard.not g).Branching ↔ g.Branching := by
  constructor
  · intro h
    cases h with
    | not h => exact h
  · exact .not

@[simp] theorem branching_and_iff : (Guard.and gs).Branching ↔ 2 ≤ gs.length ∧ ∀ g ∈ gs, g.Branching := by
  constructor
  · intro h
    cases h with
    | and hlen h => exact ⟨hlen, h⟩
  · exact fun h => .and h.1 h.2

@[simp] theorem branching_or_iff : (Guard.or gs).Branching ↔ 2 ≤ gs.length ∧ ∀ g ∈ gs, g.Branching := by
  constructor
  · intro h
    cases h with
    | or hlen h => exact ⟨hlen, h⟩
  · exact fun h => .or h.1 h.2

/-- The guards that are the value of some text: their propositions have numbers of a machine word. -/
structure Readable (g : Guard) : Prop where
  branching : g.Branching
  number : ∀ n, g.Mentions n → n < wordLimit

theorem Readable.of_not (h : (Guard.not g).Readable) : g.Readable :=
  ⟨branching_not_iff.mp h.branching, fun n hn => h.number n (.not hn)⟩

theorem Readable.of_and (h : (Guard.and gs).Readable) (hg : g ∈ gs) : g.Readable :=
  ⟨(branching_and_iff.mp h.branching).2 g hg, fun n hn => h.number n (.and hg hn)⟩

theorem Readable.of_or (h : (Guard.or gs).Readable) (hg : g ∈ gs) : g.Readable :=
  ⟨(branching_or_iff.mp h.branching).2 g hg, fun n hn => h.number n (.or hg hn)⟩

end

inductive Operator where
  | not
  | and
  | or
deriving DecidableEq

def Operator.sign : Operator → Symbol
  | .not => .not
  | .and => .and
  | .or => .or

/-- Whether a guard is put in parentheses under an operator: conjunctions and disjunctions under a negation,
disjunctions under a conjunction, and what has the same operator. A negation under a negation can do
without. -/
def groups (doubled : Bool) : Operator → Guard → Bool
  | .not, .not _ => doubled
  | .not, .and _ => true
  | .not, .or _ => true
  | .and, .and _ => true
  | .and, .or _ => true
  | .or, .or _ => true
  | _, _ => false

def enclosed (group : Bool) (ss : List Symbol) : List Symbol :=
  if group then .opening :: (ss ++ [.closing]) else ss

mutual

def symbols (doubled : Bool) : Guard → List Symbol
  | always => [.always]
  | never => [.never]
  | ap n => [.number n]
  | not g => .not :: enclosed (groups doubled .not g) (symbols doubled g)
  | and gs => symbolsOfAll doubled .and gs
  | or gs => symbolsOfAll doubled .or gs

def symbolsOfAll (doubled : Bool) (o : Operator) : List Guard → List Symbol
  | [] => []
  | [g] => enclosed (groups doubled o g) (symbols doubled g)
  | g :: gs => enclosed (groups doubled o g) (symbols doubled g) ++ o.sign :: symbolsOfAll doubled o gs

end

def symbolsUnder (doubled : Bool) (o : Operator) (g : Guard) : List Symbol :=
  enclosed (groups doubled o g) (symbols doubled g)

variable {doubled : Bool} {o : Operator} {g : Guard} {gs : List Guard}

theorem symbolsOfAll_eq (doubled : Bool) (o : Operator) (gs : List Guard) :
    symbolsOfAll doubled o gs = joined o.sign (gs.map (symbolsUnder doubled o)) := by
  induction gs with
  | nil => simp [symbolsOfAll, joined]
  | cons g gs ih => cases gs <;> simp_all [symbolsOfAll, symbolsUnder, joined]

theorem length_symbolsUnder_le (hg : g ∈ gs) :
    (symbolsUnder doubled o g).length ≤ (symbolsOfAll doubled o gs).length := by
  rw [symbolsOfAll_eq]
  exact length_le_joined (List.mem_map_of_mem hg)

theorem combine_eq (f : List Guard → Guard) (hlen : 2 ≤ gs.length) : combine f gs = f gs := by
  unfold combine
  split
  · simp at hlen
  · rfl

/-! ## Reading guards by levels -/

/-- An atom without the blanks around it; parentheses hold what `inner` reads. -/
def plainAtom (inner : Reader Guard) : Reader Guard :=
  Reader.or (Reader.map (fun _ => always) (Reader.char 't')) <|
  Reader.or (Reader.map (fun _ => never) (Reader.char 'f')) <|
  Reader.or (Reader.map ap (Reader.number wordLimit)) <|
  Reader.between '(' ')' inner

def negation (inner : Reader Guard) : Reader Guard :=
  Reader.map (fun p => p.1.foldr (fun _ g => not g) p.2) <|
    Reader.both (Reader.many (Reader.padded (Reader.char '!'))) (Reader.padded (plainAtom inner))

def conjunction (inner : Reader Guard) : Reader Guard :=
  Reader.map (combine and) (Reader.separated (Reader.padded (Reader.char '&')) (negation inner))

def disjunction (inner : Reader Guard) : Reader Guard :=
  Reader.map (combine or) (Reader.separated (Reader.padded (Reader.char '|')) (conjunction inner))

theorem reader_succ (depth : Nat) : reader (depth + 1) = disjunction (reader depth) := rfl

variable {inner : Reader Guard} {text cs : List Char} {s : Symbol} {ss : List Symbol} {stops : List Char}

theorem negation_eq_padded (h : ∀ c ∈ (trimLeft text).head?, c ≠ '!') :
    negation inner text = Reader.padded (plainAtom inner) text := by
  have hnone := Reader.many_of_eq_none (Reader.padded_char_eq_none h)
  simp only [negation, Reader.map, Reader.both, hnone]
  cases hatom : Reader.padded (plainAtom inner) text <;> simp [hatom]

theorem negation_eq_map (h : trimLeft text = '!' :: cs) :
    negation inner text = Reader.map not (negation inner) (trimLeft cs) := by
  have hmany := Reader.many_of_eq_some (fun _ _ _ => Reader.length_lt_of_padded_char)
    (Reader.padded_char_eq_some h)
  simp only [negation, Reader.map, Reader.both, hmany]
  cases Reader.many (Reader.padded (Reader.char '!')) (trimLeft cs) with
  | none => rfl
  | some p => cases h : Reader.padded (plainAtom inner) p.2 <;> simp [h]

theorem reads_negation_of_ne (hs : ∀ c ∈ s.spelling.head?, c ≠ '!')
    (h : Reads (Reader.padded (plainAtom inner)) (s :: ss) g stops) :
    Reads (negation inner) (s :: ss) g stops := by
  intro cs rest text hcs hrest htext
  obtain ⟨cs', -, heq⟩ := hcs.exists_cons
  rw [negation_eq_padded]
  · exact h cs rest text hcs hrest htext
  · rw [htext, heq, List.head?_append_of_ne_nil]
    · exact hs
    · obtain ⟨c, tail, hspelling, -⟩ := s.exists_spelling_eq
      simp [hspelling]

theorem reads_negation_not (h : Reads (negation inner) ss g stops) :
    Reads (negation inner) (.not :: ss) (.not g) stops := by
  intro cs rest text hcs hrest htext
  obtain ⟨cs', hcs', heq⟩ := hcs.exists_cons
  rw [negation_eq_map (htext.trans (heq rest))]
  exact h.map not cs' rest _ hcs' hrest (trimLeft_trimLeft _)

theorem reads_plainAtom_number {n : Nat} (hn : n < wordLimit) (hstops : ∀ c ∈ stops, isDigit c = false) :
    Reads (Reader.padded (plainAtom inner)) [.number n] (.ap n) stops := by
  apply Reads.padded
  intro rest hrest
  have hnumber : Reader.number wordLimit (Nat.toDigits 10 n ++ rest) = some (n, rest) :=
    Reader.number_toDigits_append hn (hrest.not_isDigit hstops)
  obtain ⟨d, ds, hds⟩ := List.exists_cons_of_ne_nil (Nat.toDigits_ne_nil (n := n) (b := 10))
  have hd : isDigit d = true := isDigit_of_mem_toDigits (n := n) (by rw [hds]; exact List.mem_cons_self ..)
  have ht : d ≠ 't' := by rintro rfl; cases hd
  have hf : d ≠ 'f' := by rintro rfl; cases hd
  rw [Symbol.spelling]
  rw [hds, List.cons_append] at hnumber ⊢
  simp [plainAtom, Reader.or, Reader.map, Reader.char, Reader.one, ht, hf, hnumber]

theorem plainAtom_opening (inner : Reader Guard) (cs : List Char) :
    plainAtom inner ('(' :: cs) = Reader.between '(' ')' inner ('(' :: cs) := rfl

/-- All guards with fewer symbols than the bound are read inside of parentheses. -/
def ReadsWithin (doubled : Bool) (inner : Reader Guard) (bound : Nat) : Prop :=
  ∀ g : Guard, g.Readable → (g.symbols doubled).length < bound → Reads inner (g.symbols doubled) g [')']

variable {bound : Nat}

theorem reads_negation_enclosed (hinner : ReadsWithin doubled inner bound) (hg : g.Readable)
    (hgroup : groups doubled o g = true) (hlen : (symbolsUnder doubled o g).length ≤ bound) :
    Reads (negation inner) (symbolsUnder doubled o g) g stops := by
  rw [symbolsUnder, hgroup, enclosed, if_pos rfl] at hlen ⊢
  rw [List.length_cons, List.length_append] at hlen
  apply reads_negation_of_ne
  · simp [Symbol.spelling]
  · exact (hinner g hg (by omega)).enclosed (plainAtom_opening inner)

/-- Under a negation or a conjunction stands an atom, a negation or something in parentheses. -/
theorem reads_negation (hinner : ReadsWithin doubled inner bound) (hg : g.Readable) (ho : o ≠ .or)
    (hlen : (symbolsUnder doubled o g).length ≤ bound) :
    Reads (negation inner) (symbolsUnder doubled o g) g ['&', '|', ')'] := by
  -- Only the operand of a negation is at this level again; all else is an atom or in parentheses.
  induction g using Guard.induction generalizing o with
  | always =>
    have hsymbols : symbolsUnder doubled o .always = [.always] := by cases o <;> rfl
    rw [hsymbols]
    exact reads_negation_of_ne (by simp [Symbol.spelling]) (.padded fun rest _ => rfl)
  | never =>
    have hsymbols : symbolsUnder doubled o .never = [.never] := by cases o <;> rfl
    rw [hsymbols]
    exact reads_negation_of_ne (by simp [Symbol.spelling]) (.padded fun rest _ => rfl)
  | ap n =>
    have hsymbols : symbolsUnder doubled o (.ap n) = [.number n] := by cases o <;> rfl
    rw [hsymbols]
    apply reads_negation_of_ne
    · rintro c hc rfl
      cases isDigit_of_mem_toDigits (List.mem_of_mem_head? hc)
    · exact reads_plainAtom_number (hg.number n .ap) (by simp [isDigit])
  | not g ih =>
    cases hgroup : groups doubled o (.not g) with
    | true => exact reads_negation_enclosed hinner hg hgroup hlen
    | false =>
      rw [symbolsUnder, hgroup, enclosed, if_neg Bool.false_ne_true, symbols] at hlen ⊢
      rw [List.length_cons] at hlen
      exact reads_negation_not (ih hg.of_not (by decide) (by rw [symbolsUnder]; omega))
  | and gs =>
    apply reads_negation_enclosed hinner hg _ hlen
    cases o with
    | or => exact absurd rfl ho
    | _ => rfl
  | or gs =>
    apply reads_negation_enclosed hinner hg _ hlen
    cases o <;> rfl

/-- Two operands or more, read with the sign of the operator between them. -/
theorem reads_symbolsOfAll {r : Reader Guard} {c : Char} (f : List Guard → Guard)
    (hsign : o.sign.spelling = [c]) (hc : c ∉ stops) (hlen : 2 ≤ gs.length)
    (h : ∀ g ∈ gs, Reads r (symbolsUnder doubled o g) g (c :: stops)) :
    Reads (Reader.map (combine f) (Reader.separated (Reader.padded (Reader.char c)) r))
      (symbolsOfAll doubled o gs) (f gs) stops := by
  have hne : gs ≠ [] := by
    rintro rfl
    simp at hlen
  rw [symbolsOfAll_eq, ← combine_eq f hlen]
  exact (Reads.separated hsign hc hne h).map (combine f)

/-- Under a disjunction stands a conjunction or what can stand under one. -/
theorem reads_conjunction (hinner : ReadsWithin doubled inner bound) (hg : g.Readable)
    (hlen : (symbolsUnder doubled .or g).length ≤ bound) :
    Reads (conjunction inner) (symbolsUnder doubled .or g) g ['|', ')'] := by
  by_cases hand : ∃ gs, g = .and gs
  · obtain ⟨gs, rfl⟩ := hand
    have hsymbols : symbolsUnder doubled .or (.and gs) = symbolsOfAll doubled .and gs := by
      rw [symbolsUnder, symbols]
      rfl
    rw [hsymbols] at hlen ⊢
    apply reads_symbolsOfAll and rfl (by decide) (branching_and_iff.mp hg.branching).1
    intro g' hg'
    exact reads_negation hinner (hg.of_and hg') (by decide) ((length_symbolsUnder_le hg').trans hlen)
  · have hsymbols : symbolsUnder doubled .or g = symbolsUnder doubled .and g := by
      cases g with
      | and gs => exact absurd ⟨gs, rfl⟩ hand
      | _ => rfl
    rw [hsymbols] at hlen ⊢
    exact (Reads.separated_single (s := .and) rfl (by decide)
      (reads_negation hinner hg (by decide) hlen)).map (combine and)

/-- What stands on its own or in parentheses is any guard. -/
theorem reads_disjunction (hinner : ReadsWithin doubled inner bound) (hg : g.Readable)
    (hlen : (symbols doubled g).length ≤ bound) :
    Reads (disjunction inner) (symbols doubled g) g [')'] := by
  by_cases hor : ∃ gs, g = .or gs
  · obtain ⟨gs, rfl⟩ := hor
    rw [symbols] at hlen ⊢
    apply reads_symbolsOfAll or rfl (by decide) (branching_or_iff.mp hg.branching).1
    intro g' hg'
    exact reads_conjunction hinner (hg.of_or hg') ((length_symbolsUnder_le hg').trans hlen)
  · have hsymbols : symbols doubled g = symbolsUnder doubled .or g := by
      cases g with
      | or gs => exact absurd ⟨gs, rfl⟩ hor
      | _ => rfl
    rw [hsymbols] at hlen ⊢
    exact (Reads.separated_single (s := .or) rfl (by decide)
      (reads_conjunction hinner hg hlen)).map (combine or)

/-- Each level of parentheses takes two symbols, so a depth beyond the number of symbols is enough. -/
theorem readsWithin_reader (doubled : Bool) (depth : Nat) : ReadsWithin doubled (reader depth) depth := by
  induction depth with
  | zero => exact fun g _ hlen => absurd hlen (Nat.not_lt_zero _)
  | succ depth ih =>
    intro g hg hlen
    rw [reader_succ]
    exact reads_disjunction ih hg (Nat.le_of_lt_succ hlen)

theorem read?_of_spaced (hg : g.Readable) (hcs : Spaced (g.symbols doubled) cs) : read? cs = some g := by
  have hreads := readsWithin_reader doubled (cs.length + 1) g hg (Nat.lt_succ_of_le hcs.length_le)
  have heq : reader (cs.length + 1) cs = some (g, []) :=
    hreads cs [] cs hcs (halts_nil _) (by rw [List.append_nil])
  rw [read?, Reader.whole, heq]

end Guard

end OmegaGames
