import OmegaGames.Proofs.SpacedReading
import OmegaGames.Proofs.WellFormedDescriptions

/-!
# Lines that describe states

The line of a state is scanned twice. The first scan looks for the brace in which the marks begin and has to
pass over a name in quotes, which may hold braces itself. The second one takes the tokens before that brace.
Both find their own way through quotes and backslashes, and both come out behind the name if every quote and
every backslash of it has been written with a backslash before it.
-/
namespace OmegaGames

open Text

/-! ## Writing -/

namespace Hoa

def escapeChar (c : Char) : List Char := if c = '"' ∨ c = '\\' then ['\\', c] else [c]

/-- A text with a backslash before each of its quotes and backslashes. -/
def escape (cs : List Char) : List Char := cs.flatMap escapeChar

def quoted (name : String) : List Char := '"' :: (escape name.toList ++ ['"'])

def numerals : List Nat → List Char
  | [] => []
  | [n] => Nat.toDigits 10 n
  | n :: ns => Nat.toDigits 10 n ++ ' ' :: numerals ns

def stateTokens (id : Nat) (name : Option String) : List Char :=
  Nat.toDigits 10 id ++ name.elim [] fun s => ' ' :: quoted s

def bracedMarks (sets : List Nat) : List Char := '\x7b' :: (numerals sets ++ ['\x7d'])

/-- The line for a state, with or without a name and with or without marks. -/
def stateLine (id : Nat) (name : Option String) (sets : Option (List Nat)) : List Char :=
  "State:".toList ++ ' ' :: (stateTokens id name ++ sets.elim [] fun ms => ' ' :: bracedMarks ms)

end Hoa

/-! ## Blanks at the end -/

namespace Text

theorem trimRight_append_blank {c : Char} (hc : isBlank c = true) (cs : List Char) :
    trimRight (cs ++ [c]) = trimRight cs := by
  rw [trimRight, List.reverse_append, List.reverse_singleton, List.singleton_append, trimLeft_cons_of_blank hc,
    trimRight]

theorem trimRight_eq_self {cs : List Char} (h : ∀ c ∈ cs.getLast?, isBlank c = false) : trimRight cs = cs := by
  rcases List.eq_nil_or_concat cs with rfl | ⟨init, c, rfl⟩
  · rfl
  · rw [List.concat_eq_append]
    exact trimRight_append_singleton (h c (by simp)) init

theorem words_cons_of_blank {c : Char} (hc : isBlank c = true) (cs : List Char) : words (c :: cs) = words cs := by
  simp [words, hc]

theorem words_append {w rest : List Char} (hw : ∀ c ∈ w, isBlank c = false) (hne : w ≠ [])
    (hrest : ∀ c ∈ rest.head?, isBlank c = true) : words (w ++ rest) = w :: words rest := by
  induction w with
  | nil => exact absurd rfl hne
  | cons c w ih =>
    obtain ⟨hc, hw⟩ := List.forall_mem_cons.mp hw
    cases w with
    | nil =>
      cases rest with
      | nil => simp [words, hc]
      | cons d rest =>
        have hd : isBlank d = true := hrest d rfl
        rw [List.singleton_append, words.eq_def]
        dsimp only
        cases words (d :: rest) <;> simp [hc, hd]
    | cons d w =>
      have hd : isBlank d = false := hw d (List.mem_cons_self ..)
      have hmore : words (d :: (w ++ rest)) = (d :: w) :: words rest := ih hw (List.cons_ne_nil d w)
      rw [List.cons_append, List.cons_append, words.eq_def]
      simp [hc, hd, hmore]

end Text

namespace Hoa

variable {id : Nat} {name : Option String} {cs rest : List Char}

theorem isBlank_of_mem_toDigits {c : Char} {n : Nat} (hc : c ∈ Nat.toDigits 10 n) : isBlank c = false :=
  not_isBlank_of_isDigit (isDigit_of_mem_toDigits hc)

theorem words_numerals (ns : List Nat) : words (numerals ns) = ns.map (Nat.toDigits 10) := by
  induction ns with
  | nil => rfl
  | cons n ns ih =>
    have hblank : ∀ c ∈ Nat.toDigits 10 n, isBlank c = false := fun c hc => isBlank_of_mem_toDigits hc
    cases ns with
    | nil =>
      have hwords : words (Nat.toDigits 10 n ++ []) = [Nat.toDigits 10 n] :=
        words_append hblank Nat.toDigits_ne_nil (by simp)
      rwa [List.append_nil] at hwords
    | cons m ns =>
      rw [numerals, words_append hblank Nat.toDigits_ne_nil (by simp; decide), words_cons_of_blank (by decide), ih]
      · rfl
      · exact List.cons_ne_nil m ns

/-! ## The scan for the brace -/

/-- A scan that has passed over some text. -/
def passing (passed : List Char) : Option (List Char × List Char) → Option (List Char × List Char) :=
  Option.map fun p => (passed ++ p.1, p.2)

theorem passing_passing (cs cs' : List Char) (r : Option (List Char × List Char)) :
    passing cs (passing cs' r) = passing (cs ++ cs') r := by
  cases r <;> simp [passing]

theorem splitBrace?_cons {c : Char} (hbrace : c ≠ '\x7b') (hquote : c ≠ '"') (cs : List Char) :
    splitBrace? false (c :: cs) = passing [c] (splitBrace? false cs) := by
  rw [splitBrace?]
  · rw [if_neg hquote]
    rfl
  · rintro - rfl
    exact hbrace rfl
  · simp

theorem splitBrace?_append (hcs : ∀ c ∈ cs, c ≠ '\x7b' ∧ c ≠ '"') (rest : List Char) :
    splitBrace? false (cs ++ rest) = passing cs (splitBrace? false rest) := by
  induction cs with
  | nil => cases h : splitBrace? false rest <;> simp [passing, h]
  | cons c cs ih =>
    obtain ⟨⟨hbrace, hquote⟩, hcs⟩ := List.forall_mem_cons.mp hcs
    rw [List.cons_append, splitBrace?_cons hbrace hquote, ih hcs, passing_passing]
    rfl

/-- Inside of quotes the scan takes one character of the name at a time. -/
theorem splitBrace?_escapeChar (c : Char) (rest : List Char) :
    splitBrace? true (escapeChar c ++ rest) = passing (escapeChar c) (splitBrace? true rest) := by
  by_cases hc : c = '"' ∨ c = '\\'
  · rw [escapeChar, if_pos hc]
    rfl
  · rw [escapeChar, if_neg hc]
    rw [not_or] at hc
    rw [List.singleton_append, splitBrace?]
    · rw [if_neg hc.1]
      rfl
    · simp
    · intro _ _ _ h
      exact absurd h hc.2

theorem splitBrace?_escape (cs rest : List Char) :
    splitBrace? true (escape cs ++ rest) = passing (escape cs) (splitBrace? true rest) := by
  induction cs with
  | nil => cases h : splitBrace? true rest <;> simp [escape, passing, h]
  | cons c cs ih =>
    rw [escape, List.flatMap_cons, ← escape, List.append_assoc, splitBrace?_escapeChar, ih, passing_passing]

theorem splitBrace?_quoted (s : String) (rest : List Char) :
    splitBrace? false (quoted s ++ rest) = passing (quoted s) (splitBrace? false rest) := by
  have hopen : ∀ cs, splitBrace? false ('"' :: cs) = passing ['"'] (splitBrace? true cs) := fun _ => rfl
  have hclose : ∀ cs, splitBrace? true ('"' :: cs) = passing ['"'] (splitBrace? false cs) := fun _ => rfl
  rw [quoted, List.cons_append, hopen, List.append_assoc, splitBrace?_escape, List.singleton_append, hclose,
    passing_passing, passing_passing]
  rfl

/-- The scan comes out behind the number and the name. -/
theorem splitBrace?_stateTokens (id : Nat) (name : Option String) (rest : List Char) :
    splitBrace? false (stateTokens id name ++ rest) = passing (stateTokens id name) (splitBrace? false rest) := by
  have hdigits : ∀ c ∈ Nat.toDigits 10 id, c ≠ '\x7b' ∧ c ≠ '"' := by
    intro c hc
    have hdigit := isDigit_of_mem_toDigits hc
    constructor <;> rintro rfl <;> cases hdigit
  cases name with
  | none =>
    rw [stateTokens, Option.elim_none, List.append_nil]
    exact splitBrace?_append hdigits rest
  | some s =>
    rw [stateTokens, Option.elim_some, List.append_assoc, splitBrace?_append hdigits, List.cons_append,
      splitBrace?_cons (by decide) (by decide), splitBrace?_quoted, passing_passing, passing_passing,
      List.append_assoc, List.singleton_append]

/-! ## Tokens -/

namespace Token

theorem quotedChar_escapeChar (c : Char) (rest : List Char) :
    quotedChar (escapeChar c ++ rest) = some (c, rest) := by
  by_cases hc : c = '"' ∨ c = '\\'
  · rw [escapeChar, if_pos hc]
    rfl
  · rw [escapeChar, if_neg hc]
    rw [not_or] at hc
    simp [quotedChar, Reader.or, Reader.after, Reader.map, Reader.both, Reader.char, Reader.one, hc.1, hc.2]

/-- The name is taken to its end, where the closing quote is none of its characters. -/
theorem upTo_quotedChar_escape (name rest : List Char) {n : Nat} (hn : name.length ≤ n) :
    Reader.upTo quotedChar n (escape name ++ '"' :: rest) = (name, '"' :: rest) := by
  induction name generalizing n with
  | nil => exact Reader.upTo_of_eq_none rfl n
  | cons c name ih =>
    rw [List.length_cons] at hn
    cases n with
    | zero => omega
    | succ n =>
      rw [escape, List.flatMap_cons, ← escape, List.append_assoc, Reader.upTo, quotedChar_escapeChar]
      simp only [ih (Nat.le_of_succ_le_succ hn)]

theorem length_le_escape (name : List Char) : name.length ≤ (escape name).length := by
  induction name with
  | nil => exact Nat.zero_le _
  | cons c name ih =>
    have hc : 1 ≤ (escapeChar c).length := by
      rw [escapeChar]
      split <;> simp
    rw [escape, List.flatMap_cons, ← escape, List.length_append, List.length_cons]
    omega

theorem quotedReader_quoted (s : String) (rest : List Char) :
    quotedReader (quoted s ++ rest) = some (.str s, rest) := by
  have hlen := length_le_escape s.toList
  have hmany : Reader.many quotedChar (escape s.toList ++ '"' :: rest) = some (s.toList, '"' :: rest) := by
    rw [Reader.many, upTo_quotedChar_escape]
    rw [List.length_append]
    omega
  simp [quoted, quotedReader, Reader.map, Reader.between, Reader.before, Reader.after, Reader.both, Reader.char,
    Reader.one, hmany]

theorem isIdentPart_of_isDigit {c : Char} (hc : isDigit c = true) : isIdentPart c = true := by
  obtain ⟨hlow, hhigh⟩ := isDigit_iff.mp hc
  have hranges : alphanumericRanges = (48, 57) :: alphanumericRanges.tail := rfl
  have hrange : isAlphanumeric c = true := by
    rw [isAlphanumeric, hranges, inRanges, if_neg (Nat.not_lt.mpr hlow), decide_eq_true hhigh, Bool.true_or]
  simp [isIdentPart, hrange]

theorem wordReader_toDigits {n : Nat} (hn : n < wordLimit) (hrest : ∀ c ∈ rest.head?, isIdentPart c = false) :
    wordReader (Nat.toDigits 10 n ++ rest) = some (.int n, rest) := by
  have hdigits : ∀ c ∈ Nat.toDigits 10 n, isIdentPart c = true :=
    fun c hc => isIdentPart_of_isDigit (isDigit_of_mem_toDigits hc)
  have hword : ofWord (Nat.toDigits 10 n) = .int n := by rw [ofWord, readNumeral?_toDigits hn]
  obtain ⟨d, ds, hds⟩ := List.exists_cons_of_ne_nil (Nat.toDigits_ne_nil (n := n) (b := 10))
  rw [hds] at hdigits hword ⊢
  obtain ⟨hd, hdigits⟩ := List.forall_mem_cons.mp hdigits
  have hmany : Reader.many (Reader.one isIdentPart) (ds ++ rest) = some (ds, rest) :=
    Reader.many_one_append hdigits hrest
  have hfirst : Reader.one isIdentPart (d :: (ds ++ rest)) = some (d, ds ++ rest) := by simp [Reader.one, hd]
  simp [wordReader, Reader.manyOne, Reader.map, Reader.both, hfirst, hmany, hword]

def padded : Reader Token := Reader.padded (Reader.or quotedReader wordReader)

theorem padded_quoted (s : String) (rest : List Char) : padded (quoted s ++ rest) = some (.str s, trimLeft rest) := by
  have htrim : trimLeft (quoted s ++ rest) = quoted s ++ rest := trimLeft_cons_of_not_blank (by decide) _
  rw [padded, Reader.padded, htrim, Reader.or_of_eq_some (quotedReader_quoted s rest)]
  rfl

theorem padded_toDigits {n : Nat} (hn : n < wordLimit) (hrest : ∀ c ∈ rest.head?, isIdentPart c = false) :
    padded (Nat.toDigits 10 n ++ rest) = some (.int n, trimLeft rest) := by
  have hquoted : quotedReader (Nat.toDigits 10 n ++ rest) = none := by
    obtain ⟨d, ds, hds⟩ := List.exists_cons_of_ne_nil (Nat.toDigits_ne_nil (n := n) (b := 10))
    have hd : d ≠ '"' := by
      rintro rfl
      have hdigit : isDigit '"' = true := isDigit_of_mem_toDigits (n := n) (by rw [hds]; exact List.mem_cons_self ..)
      cases hdigit
    simp [hds, quotedReader, Reader.map, Reader.between, Reader.before, Reader.after, Reader.both, Reader.char,
      Reader.one, hd]
  rw [padded, Reader.padded, trimLeft_toDigits_append, Reader.or_of_eq_none hquoted, wordReader_toDigits hn hrest]
  rfl

theorem readAll?_eq (cs : List Char) : readAll? cs = Reader.whole (Reader.many padded) cs := rfl

theorem upTo_padded_nil (n : Nat) : Reader.upTo padded n [] = ([], []) := Reader.upTo_of_eq_none rfl n

end Token

theorem readAll?_stateTokens (hid : id < wordLimit) (name : Option String) :
    Token.readAll? (stateTokens id name) = some (.int id :: name.toList.map .str) := by
  obtain ⟨n, hn⟩ : ∃ n, (Nat.toDigits 10 id).length = n + 1 :=
    Nat.exists_eq_succ_of_ne_zero (by simp [Nat.toDigits_ne_nil])
  cases name with
  | none =>
    have hnumber : Token.padded (Nat.toDigits 10 id ++ []) = some (.int id, []) :=
      Token.padded_toDigits hid (by simp)
    rw [List.append_nil] at hnumber
    rw [stateTokens, Option.elim_none, List.append_nil, Token.readAll?_eq, Reader.whole, Reader.many, hn,
      Reader.upTo_succ_of_eq_some hnumber]
    simp [Token.upTo_padded_nil]
  | some s =>
    have htrim : trimLeft (' ' :: quoted s) = quoted s ++ [] := by
      rw [trimLeft_cons_of_blank (by decide), List.append_nil]
      exact trimLeft_cons_of_not_blank (by decide) _
    have hnumber : Token.padded (Nat.toDigits 10 id ++ ' ' :: quoted s) = some (.int id, quoted s ++ []) := by
      rw [← htrim]
      exact Token.padded_toDigits hid (by simp; decide)
    have hlen : (Nat.toDigits 10 id ++ ' ' :: quoted s).length = n + (quoted s).length + 1 + 1 := by
      rw [List.length_append, List.length_cons, hn]
      omega
    rw [stateTokens, Option.elim_some, Token.readAll?_eq, Reader.whole, Reader.many, hlen,
      Reader.upTo_succ_of_eq_some hnumber, Reader.upTo_succ_of_eq_some (Token.padded_quoted s [])]
    simp [trimLeft, Token.upTo_padded_nil]

/-! ## The whole line -/

theorem isBlank_getLast?_stateTokens (id : Nat) (name : Option String) :
    ∀ c ∈ (stateTokens id name).getLast?, isBlank c = false := by
  intro c hc
  cases name with
  | none =>
    rw [stateTokens, Option.elim_none, List.append_nil] at hc
    exact isBlank_of_mem_toDigits (List.mem_of_getLast? hc)
  | some s =>
    have hlast : stateTokens id (some s) = (Nat.toDigits 10 id ++ ' ' :: '"' :: escape s.toList) ++ ['"'] := by
      simp [stateTokens, quoted]
    rw [hlast, List.getLast?_concat, Option.mem_some_iff] at hc
    rw [← hc]
    decide

theorem trimLeft_space_stateTokens (id : Nat) (name : Option String) (rest : List Char) :
    trimLeft (' ' :: (stateTokens id name ++ rest)) = stateTokens id name ++ rest := by
  rw [trimLeft_cons_of_blank (by decide), stateTokens, List.append_assoc]
  exact trimLeft_toDigits_append id _

theorem splitBrace?_space (cs : List Char) : splitBrace? false (' ' :: cs) = passing [' '] (splitBrace? false cs) :=
  splitBrace?_cons (by decide) (by decide) cs

theorem splitMarks_unmarked (id : Nat) (name : Option String) :
    splitMarks (' ' :: stateTokens id name) = .ok (stateTokens id name, []) := by
  have hbrace : splitBrace? false (' ' :: stateTokens id name) = none := by
    have hscan := splitBrace?_stateTokens id name []
    rw [List.append_nil] at hscan
    rw [splitBrace?_space, hscan]
    rfl
  have htrim := trimLeft_space_stateTokens id name []
  rw [List.append_nil] at htrim
  rw [splitMarks, hbrace]
  dsimp only
  rw [trim, htrim, trimRight_eq_self (isBlank_getLast?_stateTokens id name)]

theorem splitMarks_marked (id : Nat) (name : Option String) {ms : List Nat} (hms : ∀ m ∈ ms, m < halfWordLimit) :
    splitMarks (' ' :: (stateTokens id name ++ ' ' :: bracedMarks ms)) = .ok (stateTokens id name, sortMarks ms) := by
  have hbrace : splitBrace? false (' ' :: (stateTokens id name ++ ' ' :: bracedMarks ms)) =
      some (' ' :: (stateTokens id name ++ [' ']), numerals ms ++ ['\x7d']) := by
    have hopen : splitBrace? false (bracedMarks ms) = some ([], numerals ms ++ ['\x7d']) := rfl
    rw [splitBrace?_space, splitBrace?_stateTokens, splitBrace?_space, hopen, passing_passing, passing_passing]
    simp [passing]
  have hinside : stripLast? '\x7d' (trimRight (numerals ms ++ ['\x7d'])) = some (numerals ms) := by
    rw [trimRight_append_singleton (by decide)]
    simp [stripLast?]
  have hmarks : ∀ f : List Char → Except HoaFault Nat, (∀ m ∈ ms, f (Nat.toDigits 10 m) = .ok m) →
      (words (numerals ms)).mapM f = .ok ms := by
    intro f hf
    apply mapM_eq_ok_of_forall₂
    rw [words_numerals, List.forall₂_map_left_iff, List.forall₂_same]
    exact hf
  have htrim : trim (' ' :: (stateTokens id name ++ [' '])) = stateTokens id name := by
    rw [trim, trimLeft_space_stateTokens, trimRight_append_blank (by decide),
      trimRight_eq_self (isBlank_getLast?_stateTokens id name)]
  rw [splitMarks, hbrace]
  simp only [hinside, htrim]
  rw [hmarks]
  · rfl
  · intro m hm
    rw [readNumeral?_toDigits (hms m hm)]

theorem splitMarks_stateLine (id : Nat) (name : Option String) {sets : Option (List Nat)}
    (hsets : ∀ m ∈ sets.getD [], m < halfWordLimit) :
    splitMarks (' ' :: (stateTokens id name ++ sets.elim [] fun ms => ' ' :: bracedMarks ms)) =
      .ok (stateTokens id name, sortMarks (sets.getD [])) := by
  cases sets with
  | none =>
    rw [Option.elim_none, List.append_nil]
    exact splitMarks_unmarked id name
  | some ms => exact splitMarks_marked id name hsets

theorem readState_stateLine (hid : id < wordLimit) (name : Option String) {sets : Option (List Nat)}
    (hsets : ∀ m ∈ sets.getD [], m < halfWordLimit) :
    readState (' ' :: (stateTokens id name ++ sets.elim [] fun ms => ' ' :: bracedMarks ms)) =
      .ok ⟨id, name, sortMarks (sets.getD []), []⟩ := by
  have hlabel : (stateTokens id name).head? ≠ some '[' := by
    intro h
    rw [stateTokens, List.head?_append_of_ne_nil _ Nat.toDigits_ne_nil] at h
    cases isDigit_of_mem_toDigits (List.mem_of_mem_head? h)
  rw [readState, splitMarks_stateLine id name hsets]
  simp only [bind, Except.bind, if_neg hlabel, readAll?_stateTokens hid name]
  cases name <;> rfl

theorem stateLine_eq_cons (id : Nat) (name : Option String) (sets : Option (List Nat)) :
    ∃ cs, stateLine id name sets = 'S' :: cs :=
  ⟨_, rfl⟩

theorem trim_stateLine (id : Nat) (name : Option String) (sets : Option (List Nat)) :
    trim (stateLine id name sets) = stateLine id name sets := by
  have hfirst : trimLeft (stateLine id name sets) = stateLine id name sets := by
    obtain ⟨cs, hcs⟩ := stateLine_eq_cons id name sets
    rw [hcs, trimLeft_cons_of_not_blank (by decide)]
  rw [trim, hfirst]
  unfold stateLine
  generalize "State:".toList = key
  apply trimRight_eq_self
  cases sets with
  | none =>
    have hne : stateTokens id name ≠ [] := by simp [stateTokens, Nat.toDigits_ne_nil]
    have hlast : key ++ ' ' :: (stateTokens id name ++ []) = (key ++ [' ']) ++ stateTokens id name := by simp
    rw [Option.elim_none, hlast, List.getLast?_append_of_ne_nil _ hne]
    exact isBlank_getLast?_stateTokens id name
  | some ms =>
    have hlast : key ++ ' ' :: (stateTokens id name ++ ' ' :: bracedMarks ms) =
        (key ++ ' ' :: (stateTokens id name ++ ' ' :: '\x7b' :: numerals ms)) ++ ['\x7d'] := by
      simp [bracedMarks]
    rw [Option.elim_some, hlast, List.getLast?_concat]
    rintro c hc
    rw [← Option.mem_some_iff.mp hc]
    decide

/-- A line for a state adds that state, whatever has been read before. -/
theorem readBody_stateLine (hid : id < wordLimit) (name : Option String) {sets : Option (List Nat)}
    (hsets : ∀ m ∈ sets.getD [], m < halfWordLimit) (apCount : Nat) (states : List DescribedState) (line : Nat)
    (rest : List NumberedLine) :
    readBody apCount states ((line, trim (stateLine id name sets)) :: rest) =
      readBody apCount (⟨id, name, sortMarks (sets.getD []), []⟩ :: states) rest := by
  obtain ⟨cs, hcs⟩ := stateLine_eq_cons id name sets
  have hempty : ¬ ((stateLine id name sets).isEmpty = true) := by simp [hcs]
  have hend : stateLine id name sets ≠ "--END--".toList := by simp [hcs]
  have habort : stateLine id name sets ≠ "--ABORT--".toList := by simp [hcs]
  have hadd : addLine apCount states (stateLine id name sets) =
      .ok (⟨id, name, sortMarks (sets.getD []), []⟩ :: states) := by
    rw [addLine]
    unfold stateLine
    rw [stripStart?_append]
    simp only [readState_stateLine hid name hsets, bind, Except.bind]
    rfl
  rw [trim_stateLine, readBody, if_neg hempty, if_neg hend, if_neg habort, hadd]

end Hoa

end OmegaGames
