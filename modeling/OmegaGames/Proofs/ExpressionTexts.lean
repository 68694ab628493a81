import OmegaGames.Proofs.GuardTexts

/-!
# Texts of conditions

The text of an acceptance condition has parentheses around every combination, so it is read as an atom and
precedence plays no part. In a header it comes after the number of acceptance sets. With the texts of guards,
these are all expressions that are read.
-/
namespace OmegaGames

open Text

namespace Acceptance

/-- Every conjunction and disjunction has at least two parts. -/
inductive Branching : Acceptance → Prop
  | always : Branching .always
  | never : Branching .never
  | inf (n : Nat) : Branching (.inf n)
  | fin (n : Nat) : Branching (.fin n)
  | and {cs : List Acceptance} (hlen : 2 ≤ cs.length) (h : ∀ c ∈ cs, Branching c) : Branching (.and cs)
  | or {cs : List Acceptance} (hlen : 2 ≤ cs.length) (h : ∀ c ∈ cs, Branching c) : Branching (.or cs)

section

variable {a : Acceptance} {as : List Acceptance}

@[simp] theorem branching_and_iff : (Acceptance.and as).Branching ↔ 2 ≤ as.length ∧ ∀ a ∈ as, a.Branching := by
  constructor
  · intro h
    cases h with
    | and hlen h => exact ⟨hlen, h⟩
  · exact fun h => .and h.1 h.2

@[simp] theorem branching_or_iff : (Acceptance.or as).Branching ↔ 2 ≤ as.length ∧ ∀ a ∈ as, a.Branching := by
  constructor
  · intro h
    cases h with
    | or hlen h => exact ⟨hlen, h⟩
  · exact fun h => .or h.1 h.2

/-- The conditions that are the value of some text: their sets have numbers of half a machine word. -/
structure Readable (a : Acceptance) : Prop where
  branching : a.Branching
  number : ∀ n, a.Mentions n → n < halfWordLimit

theorem Readable.of_and (h : (Acceptance.and as).Readable) (ha : a ∈ as) : a.Readable :=
  ⟨(branching_and_iff.mp h.branching).2 a ha, fun n hn => h.number n (.and ha hn)⟩

theorem Readable.of_or (h : (Acceptance.or as).Readable) (ha : a ∈ as) : a.Readable :=
  ⟨(branching_or_iff.mp h.branching).2 a ha, fun n hn => h.number n (.or ha hn)⟩

end

mutual

def symbols : Acceptance → List Symbol
  | always => [.always]
  | never => [.never]
  | inf n => [.inf n]
  | fin n => [.fin n]
  | and as => .opening :: (symbolsOfAll .and as ++ [.closing])
  | or as => .opening :: (symbolsOfAll .or as ++ [.closing])

def symbolsOfAll (sign : Symbol) : List Acceptance → List Symbol
  | [] => []
  | [a] => symbols a
  | a :: as => symbols a ++ sign :: symbolsOfAll sign as

end

variable {a : Acceptance} {as : List Acceptance} {s : Symbol} {sign : Char}

theorem symbolsOfAll_eq (s : Symbol) (as : List Acceptance) : symbolsOfAll s as = joined s (as.map symbols) := by
  induction as with
  | nil => simp [symbolsOfAll, joined]
  | cons a as ih => cases as <;> simp_all [symbolsOfAll, joined]

theorem length_symbols_le (ha : a ∈ as) : (symbols a).length ≤ (symbolsOfAll s as).length := by
  rw [symbolsOfAll_eq]
  exact length_le_joined (List.mem_map_of_mem ha)

theorem combine_eq (f : List Acceptance → Acceptance) (hlen : 2 ≤ as.length) : combine f as = f as := by
  unfold combine
  split
  · simp at hlen
  · rfl

theorem spaced_textOfAll (hs : s.spelling = [sign]) (h : ∀ a ∈ as, Spaced a.symbols a.text) :
    Spaced (symbolsOfAll s as) (textOfAll sign as) := by
  induction as with
  | nil =>
    rw [symbolsOfAll, textOfAll]
    exact .nil
  | cons a as ih =>
    cases as with
    | nil =>
      rw [symbolsOfAll, textOfAll]
      exact h a (List.mem_singleton_self a)
    | cons a' as =>
      have hmore : Spaced (s :: symbolsOfAll s (a' :: as)) ([sign] ++ ' ' :: textOfAll sign (a' :: as)) := by
        rw [← hs]
        exact .symbol (.blank rfl (ih fun b hb => h b (List.mem_cons_of_mem a hb)))
      rw [symbolsOfAll, textOfAll, List.append_assoc]
      · exact (h a (List.mem_cons_self ..)).append (.blank rfl hmore)
      all_goals exact List.cons_ne_nil a' as

theorem spaced_text (a : Acceptance) : Spaced a.symbols a.text := by
  induction a using Acceptance.induction with
  | always => exact .symbol .nil
  | never => exact .symbol .nil
  | inf n =>
    have h : Spaced [.inf n] ((Symbol.inf n).spelling ++ []) := .symbol .nil
    rwa [List.append_nil] at h
  | fin n =>
    have h : Spaced [.fin n] ((Symbol.fin n).spelling ++ []) := .symbol .nil
    rwa [List.append_nil] at h
  | and as ih =>
    rw [symbols, text]
    exact .symbol ((spaced_textOfAll rfl ih).append (.symbol .nil))
  | or as ih =>
    rw [symbols, text]
    exact .symbol ((spaced_textOfAll rfl ih).append (.symbol .nil))

/-! ## Reading conditions by levels -/

def marking (f : Nat → Acceptance) (w : List Char) : Reader Acceptance :=
  Reader.map f (Reader.after (Reader.word w) setReader)

/-- An atom without the blanks around it; parentheses hold what `inner` reads. -/
def plainAtom (inner : Reader Acceptance) : Reader Acceptance :=
  Reader.or (marking inf "Inf".toList) <|
  Reader.or (marking fin "Fin".toList) <|
  Reader.or (Reader.map (fun _ => always) (Reader.char 't')) <|
  Reader.or (Reader.map (fun _ => never) (Reader.char 'f')) <|
  Reader.between '(' ')' inner

def conjunction (inner : Reader Acceptance) : Reader Acceptance :=
  Reader.map (combine and) (Reader.separated (Reader.padded (Reader.char '&')) (Reader.padded (plainAtom inner)))

def disjunction (inner : Reader Acceptance) : Reader Acceptance :=
  Reader.map (combine or) (Reader.separated (Reader.padded (Reader.char '|')) (conjunction inner))

theorem reader_succ (depth : Nat) : reader (depth + 1) = disjunction (reader depth) := rfl

theorem setReader_toDigits_append {n : Nat} (hn : n < halfWordLimit) (rest : List Char) :
    setReader ('(' :: (Nat.toDigits 10 n ++ ')' :: rest)) = some (n, rest) := by
  have hclosing : trimLeft (')' :: rest) = ')' :: rest := trimLeft_cons_of_not_blank (by decide) rest
  have hnumber : Reader.padded (Reader.number halfWordLimit) (Nat.toDigits 10 n ++ ')' :: rest) =
      some (n, trimLeft (')' :: rest)) :=
    Reader.padded_number_toDigits_append hn (by simp [isDigit])
  simp [setReader, Reader.between, Reader.before, Reader.after, Reader.map, Reader.both, Reader.char, Reader.one,
    hnumber, hclosing]

theorem marking_eq_some {f : Nat → Acceptance} {w text rest : List Char} {n : Nat} (hn : n < halfWordLimit)
    (hword : Reader.word w text = some ((), '(' :: (Nat.toDigits 10 n ++ ')' :: rest))) :
    marking f w text = some (f n, rest) := by
  simp [marking, Reader.map, Reader.after, Reader.both, hword, setReader_toDigits_append hn]

theorem marking_eq_none {f : Nat → Acceptance} {w cs : List Char} {c : Char} (hc : w.head? ≠ some c) :
    marking f w (c :: cs) = none := by
  have hword : Reader.word w (c :: cs) = none := by
    have hne : ¬ (c :: cs.takeWhile Reader.isWordPart = w) := by
      rintro rfl
      exact hc rfl
    rw [Reader.word, if_neg (by simp [hne])]
  simp [marking, Reader.map, Reader.after, Reader.both, hword]

theorem plainAtom_inf {n : Nat} (hn : n < halfWordLimit) (inner : Reader Acceptance) (rest : List Char) :
    plainAtom inner ((Symbol.inf n).spelling ++ rest) = some (.inf n, rest) := by
  apply Reader.or_of_eq_some
  apply marking_eq_some hn
  rw [Symbol.spelling, List.append_assoc, List.append_assoc]
  rfl

theorem plainAtom_fin {n : Nat} (hn : n < halfWordLimit) (inner : Reader Acceptance) (rest : List Char) :
    plainAtom inner ((Symbol.fin n).spelling ++ rest) = some (.fin n, rest) := by
  have hinf : marking inf "Inf".toList ((Symbol.fin n).spelling ++ rest) = none := marking_eq_none (by decide)
  rw [plainAtom, Reader.or_of_eq_none hinf]
  apply Reader.or_of_eq_some
  apply marking_eq_some hn
  rw [Symbol.spelling, List.append_assoc, List.append_assoc]
  rfl

theorem plainAtom_always (inner : Reader Acceptance) (rest : List Char) :
    plainAtom inner ('t' :: rest) = some (.always, rest) := by
  rw [plainAtom, Reader.or_of_eq_none (marking_eq_none (by decide)),
    Reader.or_of_eq_none (marking_eq_none (by decide))]
  rfl

theorem plainAtom_never (inner : Reader Acceptance) (rest : List Char) :
    plainAtom inner ('f' :: rest) = some (.never, rest) := by
  rw [plainAtom, Reader.or_of_eq_none (marking_eq_none (by decide)),
    Reader.or_of_eq_none (marking_eq_none (by decide))]
  rfl

/-- What stands in parentheses is read by the inner reader. -/
theorem plainAtom_opening (inner : Reader Acceptance) (cs : List Char) :
    plainAtom inner ('(' :: cs) = Reader.between '(' ')' inner ('(' :: cs) := rfl

variable {inner : Reader Acceptance} {stops : List Char}

theorem reads_conjunction_single {ss : List Symbol}
    (h : Reads (Reader.padded (plainAtom inner)) ss a ['&', '|', ')']) :
    Reads (conjunction inner) ss a ['|', ')'] :=
  (Reads.separated_single (s := .and) rfl (by decide) h).map (combine and)

theorem reads_disjunction_single {ss : List Symbol} (h : Reads (conjunction inner) ss a ['|', ')']) :
    Reads (disjunction inner) ss a [')'] :=
  (Reads.separated_single (s := .or) rfl (by decide) h).map (combine or)

/-- Two conditions or more, read with a sign between them. -/
theorem reads_symbolsOfAll {r : Reader Acceptance} {c : Char} (f : List Acceptance → Acceptance)
    (hs : s.spelling = [c]) (hc : c ∉ stops) (hlen : 2 ≤ as.length)
    (h : ∀ a ∈ as, Reads r (symbols a) a (c :: stops)) :
    Reads (Reader.map (combine f) (Reader.separated (Reader.padded (Reader.char c)) r))
      (symbolsOfAll s as) (f as) stops := by
  have hne : as ≠ [] := by
    rintro rfl
    simp at hlen
  rw [symbolsOfAll_eq, ← combine_eq f hlen]
  exact (Reads.separated hs hc hne h).map (combine f)

theorem reads_atom {depth : Nat} (ha : a.Readable) (hlen : a.symbols.length ≤ depth) :
    Reads (Reader.padded (plainAtom (reader depth))) a.symbols a stops := by
  induction a using Acceptance.induction generalizing depth stops with
  | always => exact .padded fun rest _ => plainAtom_always _ rest
  | never => exact .padded fun rest _ => plainAtom_never _ rest
  | inf n => exact .padded fun rest _ => plainAtom_inf (ha.number n .inf) _ rest
  | fin n => exact .padded fun rest _ => plainAtom_fin (ha.number n .fin) _ rest
  | and as ih =>
    rw [symbols] at hlen ⊢
    rw [List.length_cons, List.length_append] at hlen
    cases depth with
    | zero => omega
    | succ depth =>
      apply Reads.enclosed _ (plainAtom_opening (reader (depth + 1)))
      rw [reader_succ]
      apply reads_disjunction_single
      apply reads_symbolsOfAll and rfl (by decide) (branching_and_iff.mp ha.branching).1
      intro a ha'
      have hle := length_symbols_le (s := .and) ha'
      exact ih a ha' (ha.of_and ha') (by omega)
  | or as ih =>
    rw [symbols] at hlen ⊢
    rw [List.length_cons, List.length_append] at hlen
    cases depth with
    | zero => omega
    | succ depth =>
      apply Reads.enclosed _ (plainAtom_opening (reader (depth + 1)))
      rw [reader_succ]
      apply reads_symbolsOfAll or rfl (by decide) (branching_or_iff.mp ha.branching).1
      intro a ha'
      have hle := length_symbols_le (s := .or) ha'
      exact reads_conjunction_single (ih a ha' (ha.of_or ha') (by omega))

theorem read?_text {n : Nat} (ha : a.Readable) (hn : n < halfWordLimit) :
    read? (Nat.toDigits 10 n ++ ' ' :: a.text) = some (n, a) := by
  have hnumber : Reader.padded (Reader.number halfWordLimit) (Nat.toDigits 10 n ++ ' ' :: a.text) =
      some (n, trimLeft (' ' :: a.text)) :=
    Reader.padded_number_toDigits_append hn (by simp [isDigit])
  have hlen : a.symbols.length ≤ (Nat.toDigits 10 n ++ ' ' :: a.text).length := by
    have hle := a.spaced_text.length_le
    rw [List.length_append, List.length_cons]
    omega
  have hreads := reads_disjunction_single (reads_conjunction_single (reads_atom ha hlen))
  have hcondition := hreads a.text [] (trimLeft (' ' :: a.text)) a.spaced_text (halts_nil _)
    (by rw [trimLeft_trimLeft, trimLeft_cons_of_blank (by decide), List.append_nil])
  rw [← reader_succ] at hcondition
  simp only [read?, Reader.whole, Reader.both, hnumber, hcondition, Option.bind_eq_bind, Option.bind_some,
    Option.pure_def]
  rfl

/-- The text of a condition ends in something other than a blank. -/
theorem trimRight_append_cons_text (cs : List Char) (c : Char) (a : Acceptance) :
    trimRight (cs ++ c :: a.text) = cs ++ c :: a.text := by
  obtain ⟨cs', d, htext, hd⟩ : ∃ cs' d, a.text = cs' ++ [d] ∧ isBlank d = false := by
    cases a with
    | always => exact ⟨[], 't', rfl, rfl⟩
    | never => exact ⟨[], 'f', rfl, rfl⟩
    | inf n => exact ⟨_, ')', rfl, rfl⟩
    | fin n => exact ⟨_, ')', rfl, rfl⟩
    | and as => exact ⟨_, ')', by rw [text], rfl⟩
    | or as => exact ⟨_, ')', by rw [text], rfl⟩
  rw [htext, ← List.cons_append, ← List.append_assoc]
  exact trimRight_append_singleton hd (cs ++ c :: cs')

end Acceptance

/-! ## Lines of the header -/

namespace Hoa

def acceptanceLine (sets : Nat) (a : Acceptance) : List Char :=
  "Acceptance: ".toList ++ (Nat.toDigits 10 sets ++ ' ' :: a.text)

variable {sets : Nat} {a : Acceptance}

theorem acceptanceLine_eq_cons (sets : Nat) (a : Acceptance) : ∃ cs, acceptanceLine sets a = 'A' :: cs :=
  ⟨_, rfl⟩

theorem trim_acceptanceLine (sets : Nat) (a : Acceptance) :
    trim (acceptanceLine sets a) = acceptanceLine sets a := by
  obtain ⟨cs, hcs⟩ := acceptanceLine_eq_cons sets a
  rw [trim, hcs, trimLeft_cons_of_not_blank (by decide), ← hcs]
  unfold acceptanceLine
  rw [← List.append_assoc]
  exact Acceptance.trimRight_append_cons_text _ ' ' a

theorem splitItem_acceptanceLine (sets : Nat) (a : Acceptance) :
    splitItem (acceptanceLine sets a) = .ok ("Acceptance", Nat.toDigits 10 sets ++ ' ' :: a.text) := by
  have hkey : "Acceptance: ".toList = "Acceptance".toList ++ [':', ' '] := by decide
  have hsplit : splitOnce? ':' (acceptanceLine sets a) =
      some ("Acceptance".toList, ' ' :: (Nat.toDigits 10 sets ++ ' ' :: a.text)) := by
    unfold acceptanceLine
    rw [hkey, List.append_assoc]
    exact splitOnce?_append (by decide) _
  have htrim : trim (' ' :: (Nat.toDigits 10 sets ++ ' ' :: a.text)) =
      Nat.toDigits 10 sets ++ ' ' :: a.text := by
    rw [trim, trimLeft_cons_of_blank (by decide), trimLeft_toDigits_append]
    exact Acceptance.trimRight_append_cons_text _ ' ' a
  rw [splitItem, hsplit]
  simp only [htrim, String.ofList_toList]

/-- The line is read whatever the header holds by then. -/
theorem readHeader_acceptanceLine_of_readable (ha : a.Readable) (hsets : sets < halfWordLimit) (h : Header)
    (line : Nat) (rest : List NumberedLine) :
    readHeader true h ((line, trim (acceptanceLine sets a)) :: rest) =
      readHeader true { h with acceptance := some (sets, a) } rest := by
  obtain ⟨cs, hcs⟩ := acceptanceLine_eq_cons sets a
  have hempty : ¬ ((acceptanceLine sets a).isEmpty = true) := by simp [hcs]
  have hbody : acceptanceLine sets a ≠ "--BODY--".toList := by simp [hcs]
  have habort : acceptanceLine sets a ≠ "--ABORT--".toList := by simp [hcs]
  have hadd : h.add "Acceptance" (Nat.toDigits 10 sets ++ ' ' :: a.text) =
      .ok { h with acceptance := some (sets, a) } := by
    rw [Header.add, if_pos rfl, Acceptance.read?_text ha hsets]
  rw [trim_acceptanceLine, readHeader, if_neg hempty, if_neg hbody, if_neg habort, splitItem_acceptanceLine]
  simp only [if_pos, hadd]

end Hoa

/-- Guards and conditions are read back from their texts. A header line with the number of acceptance sets and
the text of a condition on them gives that number and that condition. A guard is read from its symbols however
they are spaced, with parentheses only for conjunctions and disjunctions under a negation, disjunctions under a
conjunction and operands with the operator that they stand under. -/
theorem expression_texts_read_back :
    (∀ (sets : Nat) (a : Acceptance), a.Branching → sets < halfWordLimit → (∀ n, a.Mentions n → n < sets) →
      ∀ (h : Hoa.Header) (line : Nat) (rest : List Hoa.NumberedLine),
        Hoa.readHeader true h ((line, trim (Hoa.acceptanceLine sets a)) :: rest) =
          Hoa.readHeader true { h with acceptance := some (sets, a) } rest) ∧
    ∀ (doubled : Bool) (g : Guard), g.Branching → (∀ n, g.Mentions n → n < wordLimit) →
      ∀ cs, Spaced (g.symbols doubled) cs → Guard.read? cs = some g := by
  constructor
  · intro sets a ha hsets hn h line rest
    have hreadable : a.Readable := ⟨ha, fun n hmention => (hn n hmention).trans hsets⟩
    exact Hoa.readHeader_acceptanceLine_of_readable hreadable hsets h line rest
  · intro doubled g hg hn cs hcs
    exact Guard.read?_of_spaced ⟨hg, hn⟩ hcs

/-- A disjunction within a disjunction. -/
def Acceptance.nested : Acceptance := .or [.and [.inf 0, .fin 1], .or [.fin 12, .always]]

/-- Each case that needs parentheses, and two negations in a row. -/
def Guard.nested : Guard :=
  .or [.not (.not (.and [.ap 0, .not (.ap 10)])), .and [.and [.ap 1, .never], .or [.always, .ap 2]]]

theorem expression_texts_read_back_nested :
    (∀ (h : Hoa.Header) (line : Nat) (rest : List Hoa.NumberedLine),
      Hoa.readHeader true h
          ((line, trim "Acceptance: 13 ((Inf(0) & Fin(1)) | (Fin(12) | t))".toList) :: rest) =
        Hoa.readHeader true { h with acceptance := some (13, .nested) } rest) ∧
    Guard.read? "!! ( 0&!10 )|(1 &f) & ( t|2) ".toList = some .nested := by
  have hline : "Acceptance: 13 ((Inf(0) & Fin(1)) | (Fin(12) | t))".toList = Hoa.acceptanceLine 13 .nested := by
    decide +kernel
  have hcondition : Acceptance.nested.Branching := by
    simp [Acceptance.nested, Acceptance.Branching.inf, Acceptance.Branching.fin, Acceptance.Branching.always]
  have hsets : ∀ n ∈ Acceptance.nested.sets, n < 13 := by decide
  have hguard : Guard.nested.Branching := by
    simp [Guard.nested, Guard.Branching.ap, Guard.Branching.always, Guard.Branching.never]
  have haps : ∀ n ∈ Guard.nested.aps, n < wordLimit := by decide
  have hspaced : Spaced (Guard.nested.symbols false) "!! ( 0&!10 )|(1 &f) & ( t|2) ".toList := by
    have hsymbols : Guard.nested.symbols false =
        [.not, .not, .opening, .number 0, .and, .not, .number 10, .closing, .or, .opening, .number 1, .and, .never,
          .closing, .and, .opening, .always, .or, .number 2, .closing] := rfl
    have htext : "!! ( 0&!10 )|(1 &f) & ( t|2) ".toList =
        ['!', '!', ' ', '(', ' ', '0', '&', '!', '1', '0', ' ', ')', '|', '(', '1', ' ', '&', 'f', ')', ' ', '&', ' ',
          '(', ' ', 't', '|', '2', ')', ' '] := by decide
    rw [hsymbols, htext]
    exact .symbol <| .symbol <| .blank rfl <| .symbol <| .blank rfl <| .symbol <| .symbol <| .symbol <| .symbol <|
      .blank rfl <| .symbol <| .symbol <| .symbol <| .symbol <| .blank rfl <| .symbol <| .symbol <| .symbol <|
      .blank rfl <| .symbol <| .blank rfl <| .symbol <| .blank rfl <| .symbol <| .symbol <| .symbol <| .symbol <|
      .blank rfl .nil
  constructor
  · rw [hline]
    exact expression_texts_read_back.1 13 .nested hcondition (by decide)
      fun n hn => hsets n hn.mem_sets
  · exact expression_texts_read_back.2 false .nested hguard (fun n hn => haps n hn.mem_aps) _ hspaced

end OmegaGames
