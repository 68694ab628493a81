import Mathlib.Data.List.DropRight
import OmegaGames.Text.Lines
import OmegaGames.Text.Reader

/-!
# Reading symbols among blanks

A grammar takes a text as a sequence of symbols, with blanks anywhere between them. What is proved of a
reader is that it takes a given sequence off the front of a text, however the sequence is spaced, and gives
one value for it. As repetition is greedy, this depends on what comes next: the first character after the
blanks has to be one that ends the sequence.
-/
namespace OmegaGames.Text

variable {α β : Type} {c : Char} {cs rest text : List Char}

/-! ## Blanks -/

theorem trimLeft_cons_of_blank (hc : isBlank c = true) (cs : List Char) : trimLeft (c :: cs) = trimLeft cs :=
  List.dropWhile_cons_of_pos hc

theorem trimLeft_cons_of_not_blank (hc : isBlank c = false) (cs : List Char) : trimLeft (c :: cs) = c :: cs :=
  List.dropWhile_cons_of_neg (by simp [hc])

@[simp] theorem trimLeft_trimLeft (cs : List Char) : trimLeft (trimLeft cs) = trimLeft cs :=
  List.dropWhile_idempotent isBlank cs

theorem trimLeft_append_cons (hc : isBlank c = false) (cs rest : List Char) :
    trimLeft (cs ++ c :: rest) = trimLeft cs ++ c :: rest := by
  induction cs with
  | nil => exact trimLeft_cons_of_not_blank hc rest
  | cons d cs ih =>
    rw [List.cons_append]
    cases hd : isBlank d with
    | true => rw [trimLeft_cons_of_blank hd, trimLeft_cons_of_blank hd, ih]
    | false => rw [trimLeft_cons_of_not_blank hd, trimLeft_cons_of_not_blank hd, List.cons_append]

theorem trimRight_append_singleton (hc : isBlank c = false) (cs : List Char) :
    trimRight (cs ++ [c]) = cs ++ [c] := by
  rw [trimRight, List.reverse_append, List.reverse_singleton, List.singleton_append, trimLeft_cons_of_not_blank hc,
    List.reverse_cons, List.reverse_reverse]

theorem length_trimLeft_le (cs : List Char) : (trimLeft cs).length ≤ cs.length :=
  (List.dropWhile_sublist isBlank).length_le

theorem splitOnce?_append (hc : c ∉ cs) (rest : List Char) : splitOnce? c (cs ++ c :: rest) = some (cs, rest) := by
  induction cs with
  | nil => simp [splitOnce?]
  | cons d cs ih =>
    rw [List.mem_cons, not_or] at hc
    simp [splitOnce?, Ne.symm hc.1, ih hc.2]

theorem stripStart?_append (start rest : List Char) : stripStart? start (start ++ rest) = some rest := by
  induction start with
  | nil => rfl
  | cons c start ih => rw [List.cons_append, stripStart?, if_pos rfl, ih]

/-- A class of characters goes as far as there are characters of it. -/
theorem takeWhile_append_dropWhile {p : Char → Bool} (hcs : ∀ c ∈ cs, p c = true)
    (hrest : ∀ c ∈ rest.head?, p c = false) :
    (cs ++ rest).takeWhile p = cs ∧ (cs ++ rest).dropWhile p = rest := by
  have hstop : rest.takeWhile p = [] ∧ rest.dropWhile p = rest := by
    cases rest with
    | nil => exact ⟨rfl, rfl⟩
    | cons c rest => simp [hrest c rfl]
  rw [List.takeWhile_append_of_pos hcs, List.dropWhile_append_of_pos hcs, hstop.1, hstop.2, List.append_nil]
  exact ⟨rfl, rfl⟩

/-! ## Numbers -/

theorem isDigit_iff : isDigit c = true ↔ 48 ≤ c.toNat ∧ c.toNat ≤ 57 := by
  simp only [isDigit, Bool.and_eq_true, decide_eq_true_eq]
  exact Iff.rfl

theorem not_isDigit_of_isBlank (hc : isBlank c = true) : isDigit c = false := by
  rw [← Bool.not_eq_true, isDigit_iff]
  simp [isBlank, inRanges, blankRanges] at hc
  omega

theorem not_isBlank_of_isDigit (hc : isDigit c = true) : isBlank c = false := by
  by_contra h
  rw [not_isDigit_of_isBlank (by simpa using h)] at hc
  cases hc

theorem isDigit_of_mem_toDigits {n : Nat} (hc : c ∈ Nat.toDigits 10 n) : isDigit c = true :=
  Nat.isDigit_of_mem_toDigits (by decide) (by decide) hc

/-- A positive number is written without leading zeros. -/
theorem head?_toDigits_ne {n : Nat} (hn : 0 < n) : (Nat.toDigits 10 n).head? ≠ some '0' := by
  induction n using Nat.strongRecOn with
  | ind n ih =>
    by_cases hlt : n < 10
    · rw [Nat.toDigits_of_lt_base hlt]
      simp
      omega
    · rw [Nat.toDigits_of_base_le (by decide) (by omega), List.head?_append_of_ne_nil _ Nat.toDigits_ne_nil]
      apply ih <;> omega

theorem trimLeft_toDigits_append (n : Nat) (rest : List Char) :
    trimLeft (Nat.toDigits 10 n ++ rest) = Nat.toDigits 10 n ++ rest := by
  cases hds : Nat.toDigits 10 n with
  | nil => exact absurd hds Nat.toDigits_ne_nil
  | cons d ds =>
    have hd : isDigit d = true := isDigit_of_mem_toDigits (n := n) (by rw [hds]; exact List.mem_cons_self ..)
    exact trimLeft_cons_of_not_blank (not_isBlank_of_isDigit hd) (ds ++ rest)

theorem digitsValue_toDigits (n : Nat) : digitsValue (Nat.toDigits 10 n) = n := by
  rw [digitsValue, ← Nat.ofDigitChars_eq_foldl, Nat.ofDigitChars_ten_toDigits]

theorem readDigits?_toDigits {n limit : Nat} (hn : n < limit) :
    readDigits? limit (Nat.toDigits 10 n) = some n := by
  have hall : (Nat.toDigits 10 n).all isDigit = true := by
    rw [List.all_eq_true]
    exact fun c hc => isDigit_of_mem_toDigits hc
  simp [readDigits?, hall, digitsValue_toDigits, hn, Nat.toDigits_ne_nil]

theorem readNumeral?_toDigits {n limit : Nat} (hn : n < limit) :
    readNumeral? limit (Nat.toDigits 10 n) = some n := by
  have hplus : ∀ ds, Nat.toDigits 10 n ≠ '+' :: ds := by
    intro ds h
    have hdigit : isDigit '+' = true := isDigit_of_mem_toDigits (n := n) (by rw [h]; exact List.mem_cons_self ..)
    cases hdigit
  rw [readNumeral?, readDigits?_toDigits hn]
  exact hplus

namespace Reader

/-- The digits of a number are taken to their end. -/
theorem digits_toDigits_append (n : Nat) (hrest : ∀ c ∈ rest.head?, isDigit c = false) :
    digits (Nat.toDigits 10 n ++ rest) = some (Nat.toDigits 10 n, rest) := by
  rcases Nat.eq_zero_or_pos n with rfl | hn
  · rfl
  cases hds : Nat.toDigits 10 n with
  | nil => exact absurd hds Nat.toDigits_ne_nil
  | cons d ds =>
    have hzero : d ≠ '0' := by
      intro hd
      exact head?_toDigits_ne hn (by rw [hds, hd, List.head?_cons])
    have hdigits : ∀ c ∈ d :: ds, isDigit c = true := by
      intro c hc
      exact isDigit_of_mem_toDigits (hds ▸ hc)
    obtain ⟨htake, hdrop⟩ := takeWhile_append_dropWhile (fun c hc => hdigits c (List.mem_cons_of_mem d hc)) hrest
    rw [List.cons_append, digits, if_neg hzero, if_pos (hdigits d (List.mem_cons_self ..)), htake, hdrop]

theorem number_toDigits_append {n limit : Nat} (hn : n < limit) (hrest : ∀ c ∈ rest.head?, isDigit c = false) :
    number limit (Nat.toDigits 10 n ++ rest) = some (n, rest) := by
  simp [number, filterMap, digits_toDigits_append n hrest, readDigits?_toDigits hn]

theorem padded_number_toDigits_append {n limit : Nat} (hn : n < limit)
    (hrest : ∀ c ∈ rest.head?, isDigit c = false) :
    padded (number limit) (Nat.toDigits 10 n ++ rest) = some (n, trimLeft rest) := by
  rw [padded, trimLeft_toDigits_append, number_toDigits_append hn hrest]
  rfl

/-! ## Alternatives and repetition -/

theorem or_of_eq_some {r r' : Reader α} {p : α × List Char} (h : r cs = some p) : or r r' cs = some p := by
  rw [or, h]

theorem or_of_eq_none {r r' : Reader α} (h : r cs = none) : or r r' cs = r' cs := by
  rw [or, h]

theorem upTo_of_eq_none {r : Reader α} (h : r cs = none) (n : Nat) : upTo r n cs = ([], cs) := by
  cases n <;> simp only [upTo, h]

theorem upTo_succ_of_eq_some {r : Reader α} {a : α} (h : r cs = some (a, rest)) (n : Nat) :
    upTo r (n + 1) cs = (a :: (upTo r n rest).1, (upTo r n rest).2) := by
  rw [upTo, h]

/-- A reader that takes something each time is repeated as often with any bound from the length of the text
on. -/
theorem upTo_eq_of_length_le {r : Reader α} (hr : ∀ cs a rest, r cs = some (a, rest) → rest.length < cs.length)
    {n m : Nat} (hn : cs.length ≤ n) (hm : cs.length ≤ m) : upTo r n cs = upTo r m cs := by
  induction n generalizing m cs with
  | zero =>
    have hnone : r cs = none := by
      rw [Option.eq_none_iff_forall_ne_some]
      rintro ⟨a, rest⟩ hcs
      have hlt := hr cs a rest hcs
      omega
    cases m with
    | zero => rfl
    | succ m => rw [upTo, upTo, hnone]
  | succ n ih =>
    cases hcs : r cs with
    | none => cases m <;> simp only [upTo, hcs]
    | some p =>
      obtain ⟨a, rest⟩ := p
      have hlt := hr cs a rest hcs
      cases m with
      | zero => omega
      | succ m =>
        have hfuel : upTo r n rest = upTo r m rest := ih (by omega) (by omega)
        simp only [upTo, hcs, hfuel]

theorem many_of_eq_none {r : Reader α} (h : r cs = none) : many r cs = some ([], cs) := by
  rw [many, upTo_of_eq_none h]

theorem many_of_eq_some {r : Reader α} (hr : ∀ cs a rest, r cs = some (a, rest) → rest.length < cs.length)
    {a : α} (h : r cs = some (a, rest)) : many r cs = map (a :: ·) (many r) rest := by
  have hlt := hr cs a rest h
  obtain ⟨n, hn⟩ : ∃ n, cs.length = n + 1 := ⟨cs.length - 1, by omega⟩
  simp only [many, map, hn, upTo, h, Option.map_some]
  rw [upTo_eq_of_length_le hr (by omega) (le_refl rest.length)]

theorem many_one_append {p : Char → Bool} (hcs : ∀ c ∈ cs, p c = true) (hrest : ∀ c ∈ rest.head?, p c = false) :
    many (one p) (cs ++ rest) = some (cs, rest) := by
  have hupTo : ∀ n, cs.length ≤ n → upTo (one p) n (cs ++ rest) = (cs, rest) := by
    induction cs with
    | nil =>
      have hnone : one p rest = none := by
        cases rest with
        | nil => rfl
        | cons c rest => simp [one, hrest c rfl]
      exact fun n _ => upTo_of_eq_none hnone n
    | cons c cs ih =>
      intro n hn
      obtain ⟨hc, hcs⟩ := List.forall_mem_cons.mp hcs
      obtain ⟨n, rfl⟩ : ∃ m, n = m + 1 := ⟨n - 1, by rw [List.length_cons] at hn; omega⟩
      have hone : one p (c :: (cs ++ rest)) = some (c, cs ++ rest) := if_pos hc
      rw [List.cons_append, upTo_succ_of_eq_some hone, ih hcs n (Nat.le_of_succ_le_succ hn)]
  rw [many, hupTo _ (by simp)]

theorem padded_char_eq_some (h : trimLeft text = c :: cs) : padded (char c) text = some (c, trimLeft cs) := by
  simp [padded, h, char, one]

theorem padded_char_eq_none (h : ∀ d ∈ (trimLeft text).head?, d ≠ c) : padded (char c) text = none := by
  cases htext : trimLeft text with
  | nil => simp [padded, htext, char, one]
  | cons d cs =>
    have hd : d ≠ c := h d (by rw [htext, List.head?_cons]; rfl)
    simp [padded, htext, char, one, hd]

theorem length_lt_of_padded_char {d : Char} (h : padded (char c) cs = some (d, rest)) :
    rest.length < cs.length := by
  cases hcs : trimLeft cs with
  | nil => simp [padded, hcs, char, one] at h
  | cons d cs' =>
    have hlen := length_trimLeft_le cs
    have hlen' := length_trimLeft_le cs'
    simp only [padded, hcs, char, one] at h
    split at h
    · simp only [Option.map_some, Option.some.injEq, Prod.mk.injEq] at h
      rw [hcs, List.length_cons] at hlen
      rw [← h.2]
      omega
    · cases h

end Reader

/-! ## Symbols -/

inductive Symbol where
  | always
  | never
  | number (n : Nat)
  | inf (set : Nat)
  | fin (set : Nat)
  | not
  | and
  | or
  | opening
  | closing

namespace Symbol

def spelling : Symbol → List Char
  | always => ['t']
  | never => ['f']
  | number n => Nat.toDigits 10 n
  | inf set => "Inf(".toList ++ Nat.toDigits 10 set ++ [')']
  | fin set => "Fin(".toList ++ Nat.toDigits 10 set ++ [')']
  | not => ['!']
  | and => ['&']
  | or => ['|']
  | opening => ['(']
  | closing => [')']

/-- A symbol does not begin with a blank. -/
theorem exists_spelling_eq (s : Symbol) : ∃ c cs, s.spelling = c :: cs ∧ isBlank c = false := by
  cases s with
  | number n =>
    obtain ⟨d, ds, hds⟩ := List.exists_cons_of_ne_nil (Nat.toDigits_ne_nil (n := n) (b := 10))
    refine ⟨d, ds, hds, not_isBlank_of_isDigit (isDigit_of_mem_toDigits (n := n) ?_)⟩
    rw [hds]
    exact List.mem_cons_self ..
  | _ => exact ⟨_, _, rfl, by decide⟩

end Symbol

def joined (sign : Symbol) : List (List Symbol) → List Symbol
  | [] => []
  | [ss] => ss
  | ss :: sss => ss ++ sign :: joined sign sss

theorem joined_cons (sign : Symbol) (ss : List Symbol) (sss : List (List Symbol)) :
    joined sign (ss :: sss) = ss ++ sss.flatMap (sign :: ·) := by
  induction sss generalizing ss with
  | nil => simp [joined]
  | cons ss' sss ih => simp [joined, ih]

theorem length_le_joined {sign : Symbol} {ss : List Symbol} {sss : List (List Symbol)} (h : ss ∈ sss) :
    ss.length ≤ (joined sign sss).length := by
  cases sss with
  | nil => cases h
  | cons ss' sss =>
    rw [joined_cons, List.length_append]
    rcases List.mem_cons.mp h with rfl | h
    · omega
    · obtain ⟨before, after, rfl⟩ := List.append_of_mem h
      simp only [List.flatMap_append, List.flatMap_cons, List.length_append, List.length_cons]
      omega

/-- Texts that consist of the symbols, with any blanks around them. -/
inductive Spaced : List Symbol → List Char → Prop
  | nil : Spaced [] []
  | blank {c : Char} {ss : List Symbol} {cs : List Char} (hc : isBlank c = true) (h : Spaced ss cs) :
      Spaced ss (c :: cs)
  | symbol {s : Symbol} {ss : List Symbol} {cs : List Char} (h : Spaced ss cs) :
      Spaced (s :: ss) (s.spelling ++ cs)

namespace Spaced

variable {s : Symbol} {ss ss' : List Symbol} {cs' : List Char}

theorem append (h : Spaced ss cs) (h' : Spaced ss' cs') : Spaced (ss ++ ss') (cs ++ cs') := by
  induction h with
  | nil => exact h'
  | blank hc _ ih => exact .blank hc ih
  | symbol _ ih =>
    rw [List.append_assoc]
    exact .symbol ih

theorem exists_append (h : Spaced (ss ++ ss') cs) :
    ∃ cs₁ cs₂, cs = cs₁ ++ cs₂ ∧ Spaced ss cs₁ ∧ Spaced ss' cs₂ := by
  generalize hall : ss ++ ss' = all at h
  induction h generalizing ss with
  | nil =>
    obtain ⟨rfl, rfl⟩ := List.append_eq_nil_iff.mp hall
    exact ⟨[], [], rfl, .nil, .nil⟩
  | blank hc _ ih =>
    obtain ⟨cs₁, cs₂, rfl, h₁, h₂⟩ := ih hall
    exact ⟨_ :: cs₁, cs₂, rfl, .blank hc h₁, h₂⟩
  | symbol h ih =>
    cases ss with
    | nil =>
      rw [List.nil_append] at hall
      exact ⟨[], _, rfl, .nil, hall ▸ .symbol h⟩
    | cons s ss =>
      obtain ⟨rfl, htail⟩ := List.cons_eq_cons.mp hall
      obtain ⟨cs₁, cs₂, rfl, h₁, h₂⟩ := ih htail
      exact ⟨s.spelling ++ cs₁, cs₂, by rw [List.append_assoc], .symbol h₁, h₂⟩

theorem trimLeft_append (h : Spaced [] cs) (rest : List Char) : trimLeft (cs ++ rest) = trimLeft rest := by
  generalize hss : ([] : List Symbol) = ss at h
  induction h with
  | nil => rfl
  | blank hc _ ih =>
    rw [List.cons_append, trimLeft_cons_of_blank hc]
    exact ih hss
  | symbol => cases hss

theorem exists_cons (h : Spaced (s :: ss) cs) :
    ∃ cs', Spaced ss cs' ∧ ∀ rest, trimLeft (cs ++ rest) = s.spelling ++ (cs' ++ rest) := by
  generalize hall : s :: ss = all at h
  induction h with
  | nil => cases hall
  | blank hc _ ih =>
    obtain ⟨cs', h', heq⟩ := ih hall
    refine ⟨cs', h', fun rest => ?_⟩
    rw [List.cons_append, trimLeft_cons_of_blank hc]
    exact heq rest
  | symbol h =>
    obtain ⟨rfl, rfl⟩ := List.cons_eq_cons.mp hall
    obtain ⟨c, tail, hs, hc⟩ := s.exists_spelling_eq
    refine ⟨_, h, fun rest => ?_⟩
    rw [hs, List.append_assoc, List.cons_append, trimLeft_cons_of_not_blank hc]

theorem length_le (h : Spaced ss cs) : ss.length ≤ cs.length := by
  induction h with
  | nil => exact le_rfl
  | blank _ _ ih => exact Nat.le_succ_of_le ih
  | @symbol s _ _ _ ih =>
    obtain ⟨c, tail, hs, _⟩ := s.exists_spelling_eq
    simp only [hs, List.length_append, List.length_cons]
    omega

end Spaced

/-! ## What readers take -/

/-- What comes next, blanks aside, is one of the given characters, if there is anything. -/
def Halts (stops rest : List Char) : Prop := ∀ c ∈ (trimLeft rest).head?, c ∈ stops

/-- A reader takes these symbols off a text and gives the value, if one of the given characters comes next. It
leaves no blanks in front. -/
def Reads (r : Reader α) (ss : List Symbol) (a : α) (stops : List Char) : Prop :=
  ∀ cs rest text, Spaced ss cs → Halts stops rest → trimLeft text = trimLeft (cs ++ rest) →
    r text = some (a, trimLeft rest)

section

variable {stops stops' : List Char} {s : Symbol} {ss : List Symbol} {r : Reader α} {a : α}

theorem halts_nil (stops : List Char) : Halts stops [] := fun _ hc => by cases hc

theorem Halts.mono (h : Halts stops rest) (hsub : stops ⊆ stops') : Halts stops' rest :=
  fun c hc => hsub (h c hc)

theorem Halts.append (h : Halts stops rest) (hcs : Spaced [] cs) : Halts stops (cs ++ rest) := by
  rw [Halts, hcs.trimLeft_append]
  exact h

theorem halts_of_spaced (hs : s.spelling = [c]) (hc : c ∈ stops) (hcs : Spaced (s :: ss) cs)
    (rest : List Char) : Halts stops (cs ++ rest) := by
  obtain ⟨cs', -, heq⟩ := hcs.exists_cons
  intro d hd
  rw [heq, hs, List.cons_append, List.head?_cons, Option.mem_some_iff] at hd
  exact hd ▸ hc

theorem Halts.blank_or_mem (h : Halts stops (c :: rest)) : isBlank c = true ∨ c ∈ stops := by
  cases hc : isBlank c with
  | true => exact .inl rfl
  | false =>
    right
    apply h c
    rw [trimLeft_cons_of_not_blank hc]
    rfl

/-- A number ends where none of its digits can follow. -/
theorem Halts.not_isDigit (h : Halts stops rest) (hstops : ∀ c ∈ stops, isDigit c = false) :
    ∀ c ∈ rest.head?, isDigit c = false := by
  cases rest with
  | nil => exact fun c hc => by cases hc
  | cons d rest =>
    intro c hc
    obtain rfl := Option.mem_some_iff.mp hc
    rcases h.blank_or_mem with hblank | hmem
    · exact not_isDigit_of_isBlank hblank
    · exact hstops _ hmem

namespace Reads

theorem map (h : Reads r ss a stops) (f : α → β) : Reads (Reader.map f r) ss (f a) stops := by
  intro cs rest text hcs hrest htext
  simp [Reader.map, h cs rest text hcs hrest htext]

theorem padded (h : ∀ rest, Halts stops rest → r (s.spelling ++ rest) = some (a, rest)) :
    Reads (Reader.padded r) [s] a stops := by
  intro cs rest text hcs hrest htext
  obtain ⟨cs', hcs', heq⟩ := hcs.exists_cons
  have hr := h (cs' ++ rest) (hrest.append hcs')
  simp [Reader.padded, htext, heq, hr, hcs'.trimLeft_append]

theorem enclosed {q : Reader α} (h : Reads r ss a [')'])
    (hq : ∀ cs, q ('(' :: cs) = Reader.between '(' ')' r ('(' :: cs)) :
    Reads (Reader.padded q) (.opening :: (ss ++ [.closing])) a stops := by
  intro cs rest text hcs hrest htext
  obtain ⟨inside, hinside, heq⟩ := hcs.exists_cons
  obtain ⟨cs₁, cs₂, rfl, h₁, h₂⟩ := hinside.exists_append
  obtain ⟨cs₃, h₃, heq₃⟩ := h₂.exists_cons
  have hclosing : Halts [')'] (cs₂ ++ rest) := halts_of_spaced rfl (List.mem_singleton_self _) h₂ rest
  have hr := h cs₁ (cs₂ ++ rest) _ h₁ hclosing rfl
  simp only [Reader.padded, htext, heq, Symbol.spelling, List.cons_append, List.nil_append, List.append_assoc,
    hq, Reader.between, Reader.before, Reader.after, Reader.map, Reader.both, Reader.char, Reader.one]
  simp [hr, heq₃, Symbol.spelling, h₃.trimLeft_append]

end Reads

/-- More values, each with a sign before it, can follow wherever the sign can. -/
theorem Halts.flatMap {f : α → List Symbol} {as : List α} (hs : s.spelling = [c])
    (hcs : Spaced (as.flatMap fun a => s :: f a) cs) (h : Halts stops rest) :
    Halts (c :: stops) (cs ++ rest) := by
  cases as with
  | nil => exact (h.append hcs).mono (List.subset_cons_self c stops)
  | cons a as =>
    rw [List.flatMap_cons, List.cons_append] at hcs
    exact halts_of_spaced hs (List.mem_cons_self ..) hcs rest

/-- What follows the first value: each time the sign and a value. -/
theorem upTo_after_of_reads (hs : s.spelling = [c]) (hc : c ∉ stops) {f : α → List Symbol} {as : List α}
    (h : ∀ a ∈ as, Reads r (f a) a (c :: stops)) (hcs : Spaced (as.flatMap fun a => s :: f a) cs)
    (hrest : Halts stops rest) {n : Nat} (hn : (trimLeft (cs ++ rest)).length ≤ n) :
    Reader.upTo (Reader.after (Reader.padded (Reader.char c)) r) n (trimLeft (cs ++ rest)) =
      (as, trimLeft rest) := by
  induction as generalizing cs n with
  | nil =>
    have hnone : Reader.padded (Reader.char c) (trimLeft rest) = none := by
      apply Reader.padded_char_eq_none
      rw [trimLeft_trimLeft]
      exact fun d hd hdc => hc (hdc ▸ hrest d hd)
    rw [hcs.trimLeft_append]
    cases n <;> simp [Reader.upTo, Reader.after, Reader.map, Reader.both, hnone]
  | cons a as ih =>
    rw [List.flatMap_cons, List.cons_append] at hcs
    obtain ⟨cs', hcs', heq⟩ := hcs.exists_cons
    obtain ⟨cs₁, cs₂, rfl, h₁, h₂⟩ := hcs'.exists_append
    have htext : trimLeft (cs ++ rest) = c :: (cs₁ ++ (cs₂ ++ rest)) := by
      rw [heq, hs, List.append_assoc]
      rfl
    have hnext : Halts (c :: stops) (cs₂ ++ rest) := hrest.flatMap hs h₂
    have hsign : Reader.padded (Reader.char c) (trimLeft (cs ++ rest)) =
        some (c, trimLeft (cs₁ ++ (cs₂ ++ rest))) :=
      Reader.padded_char_eq_some (by rw [trimLeft_trimLeft, htext])
    have hr := h a (List.mem_cons_self ..) cs₁ (cs₂ ++ rest) _ h₁ hnext (trimLeft_trimLeft _)
    have hstep : Reader.after (Reader.padded (Reader.char c)) r (trimLeft (cs ++ rest)) =
        some (a, trimLeft (cs₂ ++ rest)) := by
      simp [Reader.after, Reader.map, Reader.both, hsign, hr]
    have hlen := length_trimLeft_le (cs₂ ++ rest)
    have hlt : (trimLeft (cs₂ ++ rest)).length < n := by
      rw [htext, List.length_cons, List.length_append] at hn
      omega
    cases n with
    | zero => omega
    | succ n =>
      have hmore := ih (fun b hb => h b (List.mem_cons_of_mem a hb)) h₂ (Nat.le_of_lt_succ hlt)
      simp only [Reader.upTo, hstep, hmore]

theorem Reads.separated (hs : s.spelling = [c]) (hc : c ∉ stops) {f : α → List Symbol} {as : List α}
    (hne : as ≠ []) (h : ∀ a ∈ as, Reads r (f a) a (c :: stops)) :
    Reads (Reader.separated (Reader.padded (Reader.char c)) r) (joined s (as.map f)) as stops := by
  intro cs rest text hcs hrest htext
  obtain ⟨a, as, rfl⟩ := List.exists_cons_of_ne_nil hne
  rw [List.map_cons, joined_cons, List.flatMap_map] at hcs
  obtain ⟨cs₁, cs₂, rfl, h₁, h₂⟩ := hcs.exists_append
  rw [List.append_assoc] at htext
  have hfirst := h a (List.mem_cons_self ..) cs₁ (cs₂ ++ rest) text h₁ (hrest.flatMap hs h₂) htext
  have hmore := upTo_after_of_reads hs hc (fun b hb => h b (List.mem_cons_of_mem a hb)) h₂ hrest le_rfl
  simp [Reader.separated, Reader.map, Reader.both, Reader.many, hfirst, hmore]

theorem Reads.separated_single (hs : s.spelling = [c]) (hc : c ∉ stops) (h : Reads r ss a (c :: stops)) :
    Reads (Reader.separated (Reader.padded (Reader.char c)) r) ss [a] stops := by
  apply Reads.separated (f := fun _ => ss) hs hc (List.cons_ne_nil a [])
  intro b hb
  rw [List.mem_singleton.mp hb]
  exact h

end

end OmegaGames.Text
