import Mathlib.Data.List.Chain
import OmegaGames.PgSolver.Format
import OmegaGames.Proofs.SpacedReading

/-!
# Texts of files

A file is a sequence of tokens with blanks between them, and only a number has to be set off from a word or a
number before it. Each reader of the format takes its tokens off such a text and leaves a text of the tokens
after them. Names and comments are free text: a name ends at the next quote and a comment at the next
semicolon, so semicolons belong to a name and quotes to a comment.
-/
namespace OmegaGames.PgSolver

open Text

/-! ## Tokens -/

inductive Token where
  | parity
  | start
  | number (n : Nat)
  | comma
  | semicolon
  | quoted (name : String)
  | comment (text : List Char)
deriving DecidableEq

namespace Token

def spelling : Token → List Char
  | parity => "parity".toList
  | start => "start".toList
  | number n => Nat.toDigits 10 n
  | comma => [',']
  | semicolon => [';']
  | quoted name => '"' :: (name.toList ++ ['"'])
  | comment text => text

@[simp] theorem spelling_semicolon : semicolon.spelling = [';'] := rfl

@[simp] theorem spelling_quoted (name : String) : (quoted name).spelling = '"' :: (name.toList ++ ['"']) := rfl

@[simp] theorem spelling_comment (text : List Char) : (comment text).spelling = text := rfl

/-- A word or a number, which goes on as long as there are digits. -/
def isOpen : Token → Bool
  | parity => true
  | start => true
  | number _ => true
  | _ => false

def isNumber : Token → Bool
  | number _ => true
  | _ => false

def isComment : Token → Bool
  | comment _ => true
  | _ => false

theorem isOpen_of_isNumber {t : Token} (ht : t.isNumber = true) : t.isOpen = true := by
  cases t <;> simp_all [isNumber, isOpen]

theorem isComment_of_isOpen {t : Token} (ht : t.isOpen = true) : t.isComment = false := by
  cases t <;> simp_all [isOpen, isComment]

/-- A number that follows a word or a number is set off by a blank. -/
def Apart (t : Token) (ts : List Token) (cs : List Char) : Prop :=
  t.isOpen = true → (∃ t' ∈ ts.head?, t'.isNumber = true) → ∀ c ∈ cs.head?, isBlank c = true

/-- Only comments may be empty or begin with a blank. -/
theorem exists_spelling_eq {t : Token} (ht : t.isComment = false) :
    ∃ c cs, t.spelling = c :: cs ∧ isBlank c = false ∧ isDigit c = t.isNumber := by
  cases t with
  | number n =>
    obtain ⟨d, ds, hds⟩ := List.exists_cons_of_ne_nil (Nat.toDigits_ne_nil (n := n) (b := 10))
    have hd : isDigit d = true := isDigit_of_mem_toDigits (n := n) (by rw [hds]; exact List.mem_cons_self ..)
    exact ⟨d, ds, hds, not_isBlank_of_isDigit hd, hd⟩
  | comment text => cases ht
  | _ => exact ⟨_, _, rfl, by decide, rfl⟩

end Token

/-- Texts that consist of the tokens, with any blanks around them. -/
inductive Laid : List Token → List Char → Prop
  | nil : Laid [] []
  | blank {c : Char} {ts : List Token} {cs : List Char} (hc : isBlank c = true) (h : Laid ts cs) :
      Laid ts (c :: cs)
  | token {t : Token} {ts : List Token} {cs : List Char} (hapart : t.Apart ts cs) (h : Laid ts cs) :
      Laid (t :: ts) (t.spelling ++ cs)

namespace Laid

variable {t : Token} {ts : List Token} {c : Char} {cs : List Char}

theorem trimLeft_nil (h : Laid [] cs) : trimLeft cs = [] := by
  generalize hts : ([] : List Token) = ts at h
  induction h with
  | nil => rfl
  | blank hc _ ih =>
    rw [trimLeft_cons_of_blank hc]
    exact ih hts
  | token => cases hts

theorem exists_append (h : Laid (t :: ts) cs) :
    ∃ blanks cs', (∀ c ∈ blanks, isBlank c = true) ∧ cs = blanks ++ (t.spelling ++ cs') ∧ Laid ts cs' ∧
      t.Apart ts cs' := by
  generalize hall : t :: ts = all at h
  induction h with
  | nil => cases hall
  | blank hc _ ih =>
    obtain ⟨blanks, cs', hblanks, rfl, h', hapart⟩ := ih hall
    exact ⟨_ :: blanks, cs', List.forall_mem_cons.mpr ⟨hc, hblanks⟩, rfl, h', hapart⟩
  | @token t' ts' cs' hapart h =>
    obtain ⟨rfl, rfl⟩ := List.cons_eq_cons.mp hall
    exact ⟨[], cs', by simp, rfl, h, hapart⟩

theorem exists_cons (h : Laid (t :: ts) cs) (ht : t.isComment = false) :
    ∃ cs', trimLeft cs = t.spelling ++ cs' ∧ Laid ts cs' ∧ t.Apart ts cs' := by
  obtain ⟨blanks, cs', hblanks, rfl, h', hapart⟩ := h.exists_append
  obtain ⟨d, ds, hs, hd, -⟩ := Token.exists_spelling_eq ht
  refine ⟨cs', ?_, h', hapart⟩
  rw [trimLeft, List.dropWhile_append_of_pos hblanks, hs]
  exact trimLeft_cons_of_not_blank hd _

theorem head?_trimLeft (h : Laid ts cs) (hts : ∀ t ∈ ts.head?, t.isComment = false) :
    ∀ c ∈ (trimLeft cs).head?, ∃ t ∈ ts.head?, t.spelling.head? = some c := by
  cases ts with
  | nil =>
    rw [h.trimLeft_nil]
    intro c hc
    cases hc
  | cons t ts =>
    obtain ⟨cs', heq, -⟩ := h.exists_cons (hts t rfl)
    obtain ⟨d, ds, hs, -⟩ := Token.exists_spelling_eq (hts t rfl)
    intro c hc
    refine ⟨t, rfl, ?_⟩
    rw [heq, hs] at hc
    rw [hs]
    exact hc

/-- A number ends where its token does. -/
theorem not_isDigit (h : Laid ts cs) (hts : ∀ t ∈ ts.head?, t.isComment = false)
    (hapart : (∃ t ∈ ts.head?, t.isNumber = true) → ∀ c ∈ cs.head?, isBlank c = true) :
    ∀ c ∈ cs.head?, isDigit c = false := by
  cases h with
  | nil =>
    intro c hc
    cases hc
  | blank hc =>
    intro c hc'
    obtain rfl := Option.mem_some_iff.mp hc'
    exact not_isDigit_of_isBlank hc
  | @token t ts cs =>
    obtain ⟨d, ds, hs, hd, hdigit⟩ := Token.exists_spelling_eq (hts t rfl)
    intro c hc
    obtain rfl : d = c := by simpa [hs] using hc
    cases hnumber : t.isNumber with
    | true =>
      have hblank := hapart ⟨t, rfl, hnumber⟩ d (by rw [hs]; rfl)
      rw [hd] at hblank
      cases hblank
    | false => rw [hdigit, hnumber]

theorem count_le (h : Laid ts cs) (ht : t.spelling = [c]) : ts.count t ≤ cs.count c := by
  induction h with
  | nil => exact le_rfl
  | blank _ _ ih => exact ih.trans List.count_le_count_cons
  | @token t' ts cs _ _ ih =>
    rw [List.count_cons, List.count_append]
    split
    next heq =>
      rw [eq_of_beq heq, ht, List.count_singleton_self]
      omega
    next => omega

/-- A token of one character occurs no more often than there are characters after the first blanks. -/
theorem count_le_length (h : Laid ts cs) (ht : t.spelling = [c]) (hc : isBlank c = false) :
    ts.count t ≤ (trimLeft cs).length := by
  have hblanks : (cs.takeWhile isBlank).count c = 0 := by
    refine List.count_eq_zero.mpr fun hmem => ?_
    rw [List.mem_takeWhile_imp hmem] at hc
    cases hc
  calc ts.count t ≤ cs.count c := h.count_le ht
    _ = (cs.takeWhile isBlank ++ trimLeft cs).count c := by rw [trimLeft, List.takeWhile_append_dropWhile]
    _ = (trimLeft cs).count c := by rw [List.count_append, hblanks, Nat.zero_add]
    _ ≤ (trimLeft cs).length := List.count_le_length

theorem append_blanks (h : Laid ts cs) {blanks : List Char} (hblanks : ∀ c ∈ blanks, isBlank c = true) :
    Laid ts (blanks ++ cs) := by
  induction blanks with
  | nil => exact h
  | cons c blanks ih =>
    obtain ⟨hc, hblanks⟩ := List.forall_mem_cons.mp hblanks
    exact .blank hc (ih hblanks)

/-- Tokens with blanks after each of them, where none are needed but before some numbers. -/
theorem of_gaps {items : List (Token × List Char)} (hblanks : ∀ i ∈ items, ∀ c ∈ i.2, isBlank c = true)
    (hapart : items.IsChain fun i j => i.1.isOpen = true → j.1.isNumber = true → i.2 ≠ []) :
    Laid (items.map Prod.fst) (items.flatMap fun i => i.1.spelling ++ i.2) := by
  induction items with
  | nil => exact .nil
  | cons i items ih =>
    obtain ⟨hi, hblanks⟩ := List.forall_mem_cons.mp hblanks
    rw [List.flatMap_cons, List.append_assoc]
    refine .token ?_ ((ih hblanks hapart.tail).append_blanks hi)
    rintro hopen ⟨t, ht, hnumber⟩ c hc
    cases items with
    | nil => cases ht
    | cons j items =>
      cases ht
      have hne : i.2 ≠ [] := (List.isChain_cons_cons.mp hapart).1 hopen hnumber
      obtain ⟨d, ds, hgap⟩ := List.exists_cons_of_ne_nil hne
      rw [hgap, List.cons_append, List.head?_cons, Option.mem_some_iff] at hc
      exact hc ▸ hi d (by rw [hgap]; exact List.mem_cons_self ..)

end Laid

/-! ## What readers take -/

/-- The reader takes the tokens off a text and gives the value, if these other tokens come after them. It leaves
no blanks in front. -/
def Takes {α : Type} (r : Reader α) (ts : List Token) (a : α) (more : List Token) : Prop :=
  ∀ cs, Laid (ts ++ more) cs → ∃ cs', Laid more cs' ∧ r (trimLeft cs) = some (a, trimLeft cs')

namespace Takes

variable {α β : Type} {r : Reader α} {s : Reader β} {a : α} {b : β} {t : Token} {ts us more : List Token}

theorem map (h : Takes r ts a more) (f : α → β) : Takes (Reader.map f r) ts (f a) more := by
  intro cs hcs
  obtain ⟨cs', hcs', heq⟩ := h cs hcs
  exact ⟨cs', hcs', by rw [Reader.map, heq]; rfl⟩

theorem both (h : Takes r ts a (us ++ more)) (h' : Takes s us b more) :
    Takes (Reader.both r s) (ts ++ us) (a, b) more := by
  intro cs hcs
  rw [List.append_assoc] at hcs
  obtain ⟨cs₁, hcs₁, heq₁⟩ := h cs hcs
  obtain ⟨cs₂, hcs₂, heq₂⟩ := h' cs₁ hcs₁
  exact ⟨cs₂, hcs₂, by simp [Reader.both, heq₁, heq₂]⟩

theorem after (h : Takes r ts a (us ++ more)) (h' : Takes s us b more) :
    Takes (Reader.after r s) (ts ++ us) b more :=
  (h.both h').map Prod.snd

theorem before (h : Takes r ts a (us ++ more)) (h' : Takes s us b more) :
    Takes (Reader.before r s) (ts ++ us) a more :=
  (h.both h').map Prod.fst

theorem optional (h : Takes r ts a more) : Takes (Reader.optional r) ts (some a) more := by
  intro cs hcs
  obtain ⟨cs', hcs', heq⟩ := h cs hcs
  exact ⟨cs', hcs', by rw [Reader.optional, heq]⟩

theorem optional_none (h : ∀ cs, Laid more cs → r (trimLeft cs) = none) :
    Takes (Reader.optional r) [] none more := by
  intro cs hcs
  exact ⟨cs, hcs, by rw [Reader.optional, h cs hcs]⟩

theorem padded (ht : t.isComment = false)
    (h : ∀ cs, Laid more cs → t.Apart more cs → r (t.spelling ++ cs) = some (a, cs)) :
    Takes (Reader.padded r) [t] a more := by
  intro cs hcs
  obtain ⟨cs', heq, hcs', hapart⟩ := hcs.exists_cons ht
  refine ⟨cs', hcs', ?_⟩
  rw [Reader.padded, trimLeft_trimLeft, heq, h cs' hcs' hapart]
  rfl

/-- Repetition, of a reader whose tokens hold a token of one character each time. What comes next has to end
the value before it, and at the end it has to stop the reader. -/
theorem many {ι : Type} {f : ι → List Token} {g : ι → α} {is : List ι} {c : Char} (ht : t.spelling = [c])
    (hc : isBlank c = false) (hmem : ∀ i ∈ is, t ∈ f i) {P : List Token → Prop} (hmore : P more)
    (hstep : ∀ i ∈ is, ∀ rest, P rest → Takes r (f i) (g i) rest ∧ P (f i ++ rest))
    (hstop : ∀ cs, Laid more cs → r (trimLeft cs) = none) :
    Takes (Reader.many r) (is.flatMap f) (is.map g) more := by
  have hrest : ∀ js ⊆ is, P (js.flatMap f ++ more) := by
    intro js hjs
    induction js with
    | nil => exact hmore
    | cons j js ih =>
      obtain ⟨hj, hjs⟩ := List.cons_subset.mp hjs
      rw [List.flatMap_cons, List.append_assoc]
      exact (hstep j hj _ (ih hjs)).2
  have hupTo : ∀ js ⊆ is, ∀ n, js.length ≤ n → ∀ cs, Laid (js.flatMap f ++ more) cs →
      ∃ cs', Laid more cs' ∧ Reader.upTo r n (trimLeft cs) = (js.map g, trimLeft cs') := by
    intro js hjs
    induction js with
    | nil => exact fun n _ cs hcs => ⟨cs, hcs, Reader.upTo_of_eq_none (hstop cs hcs) n⟩
    | cons j js ih =>
      obtain ⟨hj, hjs⟩ := List.cons_subset.mp hjs
      intro n hn cs hcs
      obtain ⟨n, rfl⟩ : ∃ m, n = m + 1 := ⟨n - 1, by rw [List.length_cons] at hn; omega⟩
      rw [List.flatMap_cons, List.append_assoc] at hcs
      obtain ⟨cs₁, hcs₁, heq₁⟩ := (hstep j hj _ (hrest js hjs)).1 cs hcs
      obtain ⟨cs₂, hcs₂, heq₂⟩ := ih hjs n (Nat.le_of_succ_le_succ hn) cs₁ hcs₁
      exact ⟨cs₂, hcs₂, by rw [Reader.upTo_succ_of_eq_some heq₁, heq₂]; rfl⟩
  -- Repetition is bounded by the length of the text, and every round takes a character of its own.
  have hcount : is.length ≤ (is.flatMap f ++ more).count t := by
    clear hrest hupTo hstep
    induction is with
    | nil => exact Nat.zero_le _
    | cons i is ih =>
      obtain ⟨hi, his⟩ := List.forall_mem_cons.mp hmem
      have hpos := List.count_pos_iff.mpr hi
      have hle := ih his
      rw [List.flatMap_cons, List.append_assoc, List.count_append, List.length_cons]
      omega
  intro cs hcs
  have hlen := hcount.trans (hcs.count_le_length ht hc)
  obtain ⟨cs', hcs', heq⟩ := hupTo is (List.Subset.refl is) _ hlen cs hcs
  exact ⟨cs', hcs', by rw [Reader.many, heq]⟩

end Takes

/-! ## The readers of the format -/

section Readers

variable {more : List Token} {n : Nat}

theorem takes_number (hn : n < wordLimit) (hmore : ∀ t ∈ more.head?, t.isComment = false) :
    Takes number [.number n] n more :=
  Takes.padded rfl fun _ hcs hapart => Reader.number_toDigits_append hn (hcs.not_isDigit hmore (hapart rfl))

theorem takes_semicolon : Takes semicolon [.semicolon] ';' more :=
  Takes.padded rfl fun _ _ _ => rfl

def playerNumber : Player → Nat
  | .odd => 1
  | _ => 0

theorem takes_player {p : Player} (hp : p ≠ .stochastic) : Takes player [.number (playerNumber p)] p more := by
  refine Takes.padded rfl fun cs _ _ => ?_
  cases p with
  | even => rfl
  | odd => rfl
  | stochastic => exact absurd rfl hp

theorem toNat_of_isWordStart {c : Char} (hc : Reader.isWordStart c = true) : 65 ≤ c.toNat ∧ c.toNat ≤ 122 := by
  simp only [Reader.isWordStart, Bool.or_eq_true, Bool.and_eq_true, decide_eq_true_eq] at hc
  rcases hc with (⟨hlow, hhigh⟩ | ⟨hlow, hhigh⟩) | rfl
  · exact ⟨hlow, le_trans hhigh (by decide)⟩
  · exact ⟨le_trans (by decide) hlow, hhigh⟩
  · decide

theorem not_isWordStart_of_isDigit {c : Char} (hc : isDigit c = true) : Reader.isWordStart c = false := by
  rw [← Bool.not_eq_true]
  intro hstart
  have hrange := toNat_of_isWordStart hstart
  have hdigit := isDigit_iff.mp hc
  omega

theorem not_isWordPart_of_isBlank {c : Char} (hc : isBlank c = true) : Reader.isWordPart c = false := by
  have hstart : Reader.isWordStart c = false := by
    rw [← Bool.not_eq_true]
    intro hstart
    have hrange := toNat_of_isWordStart hstart
    simp [isBlank, inRanges, blankRanges] at hc
    omega
  rw [Reader.isWordPart, hstart, not_isDigit_of_isBlank hc, Bool.or_false]

/-- Words that are read up to a number after them. -/
structure Token.Spells (t : Token) (w : String) : Prop where
  isOpen : t.isOpen = true
  eq_toList : t.spelling = w.toList
  head : ∃ c cs, w.toList = c :: cs ∧ Reader.isWordStart c = true ∧ ∀ d ∈ cs, Reader.isWordPart d = true

theorem spells_parity : Token.parity.Spells "parity" :=
  ⟨rfl, rfl, 'p', "arity".toList, by decide, by decide, List.all_eq_true.mp (by decide)⟩

theorem spells_start : Token.start.Spells "start" :=
  ⟨rfl, rfl, 's', "tart".toList, by decide, by decide, List.all_eq_true.mp (by decide)⟩

theorem takes_word {t : Token} {w : String} (hw : t.Spells w) (hmore : ∃ t' ∈ more.head?, t'.isNumber = true) :
    Takes (Reader.padded (Reader.word w.toList)) [t] () more := by
  refine Takes.padded (Token.isComment_of_isOpen hw.isOpen) fun cs hcs hapart => ?_
  obtain ⟨c, ds, heq, hc, hds⟩ := hw.head
  have hend : ∀ d ∈ cs.head?, Reader.isWordPart d = false :=
    fun d hd => not_isWordPart_of_isBlank (hapart hw.isOpen hmore d hd)
  obtain ⟨htake, hdrop⟩ := takeWhile_append_dropWhile hds hend
  rw [hw.eq_toList, heq, List.cons_append, Reader.word, htake, hdrop]
  simp [hc]

theorem takes_item {t : Token} {w : String} (hw : t.Spells w) (hn : n < wordLimit) :
    Takes (item w) [t, .number n, .semicolon] n more :=
  ((takes_word hw ⟨_, rfl, rfl⟩).after (takes_number hn (by simp [Token.isComment]))).before takes_semicolon

def successorTokens : List Nat → List Token
  | [] => []
  | s :: ss => .number s :: ss.flatMap fun s => [.comma, .number s]

theorem takes_successors {ss : List Nat} (hne : ss ≠ []) (hss : ∀ s ∈ ss, s < wordLimit)
    (hmore : ∀ t ∈ more.head?, t.isComment = false) (hcomma : ∀ t ∈ more.head?, t.spelling.head? ≠ some ',') :
    Takes successors (successorTokens ss) ss more := by
  cases ss with
  | nil => exact absurd rfl hne
  | cons s ss =>
    obtain ⟨hs, hss⟩ := List.forall_mem_cons.mp hss
    have hstop : ∀ cs, Laid more cs →
        Reader.after (Reader.padded (Reader.char ',')) number (trimLeft cs) = none := by
      intro cs hcs
      have hnone : Reader.padded (Reader.char ',') (trimLeft cs) = none := by
        apply Reader.padded_char_eq_none
        rintro d hd rfl
        rw [trimLeft_trimLeft] at hd
        obtain ⟨t, ht, hhead⟩ := hcs.head?_trimLeft hmore _ hd
        exact hcomma t ht hhead
      simp [Reader.after, Reader.map, Reader.both, hnone]
    have hmany : Takes (Reader.many (Reader.after (Reader.padded (Reader.char ',')) number))
        (ss.flatMap fun s => [.comma, .number s]) (ss.map id) more := by
      refine Takes.many (t := .comma) (P := fun ts => ∀ t ∈ ts.head?, t.isComment = false) rfl (by decide)
        (by simp) hmore (fun s hs rest hrest => ⟨?_, by simp [Token.isComment]⟩) hstop
      have hsign : Takes (Reader.padded (Reader.char ',')) [.comma] ',' ([.number s] ++ rest) :=
        Takes.padded rfl fun _ _ _ => rfl
      exact hsign.after (takes_number (hss s hs) hrest)
    rw [List.map_id] at hmany
    have hnext : ∀ t ∈ ((ss.flatMap fun s => [Token.comma, .number s]) ++ more).head?, t.isComment = false := by
      cases ss with
      | nil => exact hmore
      | cons s ss => simp [Token.isComment]
    exact ((takes_number hs hnext).both hmany).map fun p => p.1 :: p.2

theorem takes_name {name : String} (hname : '"' ∉ name.toList) : Takes PgSolver.name [.quoted name] name more := by
  refine Takes.padded rfl fun cs _ _ => ?_
  have hmany : Reader.many (Reader.one (· != '"')) (name.toList ++ '"' :: cs) = some (name.toList, '"' :: cs) := by
    refine Reader.many_one_append (fun c hc => ?_) (by simp)
    rw [bne_iff_ne]
    rintro rfl
    exact hname hc
  simp [Reader.map, Reader.between, Reader.before, Reader.after, Reader.both, Reader.char,
    Reader.one, hmany]

/-! ### The end of a row -/

theorem rowEnd_append {cs : List Char} (hcs : ';' ∉ cs) (rest : List Char) :
    rowEnd (cs ++ ';' :: rest) = some ((), trimLeft rest) := by
  have hmany : Reader.many (Reader.one (· != ';')) (cs ++ ';' :: rest) = some (cs, ';' :: rest) := by
    refine Reader.many_one_append (fun c hc => ?_) (by simp)
    rw [bne_iff_ne]
    rintro rfl
    exact hcs hc
  have hsemicolon : semicolon (';' :: rest) = some (';', trimLeft rest) :=
    Reader.padded_char_eq_some (trimLeft_cons_of_not_blank (by decide) rest)
  simp [rowEnd, Reader.map, Reader.both, hmany, hsemicolon]

theorem takes_rowEnd : Takes rowEnd [.semicolon] () more := by
  intro cs hcs
  obtain ⟨cs', heq, hcs', -⟩ := hcs.exists_cons rfl
  exact ⟨cs', hcs', by rw [heq]; exact rowEnd_append List.not_mem_nil cs'⟩

theorem takes_rowEnd_comment {text : List Char} (htext : ';' ∉ text) :
    Takes rowEnd [.comment text, .semicolon] () more := by
  intro cs hcs
  obtain ⟨blanks, cs₁, hblanks, rfl, hcs₁, -⟩ := hcs.exists_append
  obtain ⟨blanks', cs₂, hblanks', rfl, hcs₂, -⟩ := hcs₁.exists_append
  have hsplit : blanks ++ (Token.spelling (.comment text) ++ (blanks' ++ (Token.spelling .semicolon ++ cs₂))) =
      (blanks ++ text ++ blanks') ++ ';' :: cs₂ := by simp
  have hmem : ';' ∉ blanks ++ text ++ blanks' := by
    have hblank : ¬ isBlank ';' = true := by decide
    simp only [List.mem_append, not_or]
    exact ⟨⟨fun h => hblank (hblanks _ h), htext⟩, fun h => hblank (hblanks' _ h)⟩
  have htrim : ';' ∉ trimLeft (blanks ++ text ++ blanks') :=
    fun h => hmem ((List.dropWhile_sublist isBlank).subset h)
  exact ⟨cs₂, hcs₂, by rw [hsplit, trimLeft_append_cons (by decide), rowEnd_append htrim]⟩

/-! ### Rows and files -/

def labelTokens (comment : List Char) : Option String → List Token
  | none => []
  | some name => [.quoted name, .comment comment]

def rowTokens (n : FileNode) (comment : List Char) : List Token :=
  [.number n.id] ++ ([.number n.priority] ++ ([.number (playerNumber n.owner)] ++
    (successorTokens n.successors ++ (labelTokens comment n.name ++ [.semicolon]))))

/-- A node that a file can declare, with a comment that ends at the semicolon of the row. -/
structure Writable (n : FileNode) (comment : List Char) : Prop where
  id_lt : n.id < wordLimit
  priority_lt : n.priority < wordLimit
  owner_ne : n.owner ≠ .stochastic
  successors_ne : n.successors ≠ []
  successors_lt : ∀ s ∈ n.successors, s < wordLimit
  name_quoteless : ∀ name ∈ n.name, '"' ∉ name.toList
  comment_closed : ';' ∉ comment

theorem takes_label {name : Option String} {comment : List Char} (hname : ∀ s ∈ name, '"' ∉ s.toList)
    (hcomment : ';' ∉ comment) :
    Takes (Reader.before (Reader.optional PgSolver.name) rowEnd) (labelTokens comment name ++ [.semicolon]) name
      more := by
  cases name with
  | none =>
    refine (Takes.optional_none fun cs hcs => ?_).before takes_rowEnd
    obtain ⟨cs', heq, -⟩ := hcs.exists_cons rfl
    rw [heq]
    rfl
  | some s => exact (takes_name (hname s rfl)).optional.before (takes_rowEnd_comment hcomment)

theorem takes_row {n : FileNode} {comment : List Char} (h : Writable n comment) :
    Takes row (rowTokens n comment) n more := by
  -- The list of successors ends at a quote or a semicolon.
  have hnext : ∀ t ∈ (labelTokens comment n.name ++ [Token.semicolon] ++ more).head?,
      t.isComment = false ∧ t.spelling.head? ≠ some ',' := by
    cases n.name <;> simp [labelTokens, Token.isComment]
  have hsuccessors := (takes_successors h.successors_ne h.successors_lt (fun t ht => (hnext t ht).1)
    (fun t ht => (hnext t ht).2)).both (takes_label h.name_quoteless h.comment_closed)
  have hnumbers := (takes_number h.priority_lt (by simp [Token.isComment])).both
    ((takes_player h.owner_ne).both hsuccessors)
  exact ((takes_number h.id_lt (by simp [Token.isComment])).both hnumbers).map
    fun p => (⟨p.1, p.2.1, p.2.2.1, p.2.2.2.1, p.2.2.2.2⟩ : FileNode)

def startTokens : Option Nat → List Token
  | none => []
  | some id => [.start, .number id, .semicolon]

def fileTokens (maxId : Nat) (start : Option Nat) (rows : List (FileNode × List Char)) : List Token :=
  [.parity, .number maxId, .semicolon] ++ (startTokens start ++ rows.flatMap fun r => rowTokens r.1 r.2)

/-- Where rows begin or the text ends, there is no start node. -/
theorem item_eq_none {ts : List Token} (hts : ∀ t ∈ ts.head?, t.isNumber = true) {cs : List Char} (h : Laid ts cs)
    (w : String) : item w (trimLeft cs) = none := by
  have hcomment : ∀ t ∈ ts.head?, t.isComment = false :=
    fun t ht => Token.isComment_of_isOpen (Token.isOpen_of_isNumber (hts t ht))
  have hword : Reader.padded (Reader.word w.toList) (trimLeft cs) = none := by
    rw [Reader.padded, trimLeft_trimLeft]
    cases htrim : trimLeft cs with
    | nil => rfl
    | cons c cs' =>
      have hdigit : isDigit c = true := by
        obtain ⟨t, ht, hhead⟩ := h.head?_trimLeft hcomment c (by rw [htrim]; rfl)
        obtain ⟨d, ds, hs, -, hd⟩ := Token.exists_spelling_eq (hcomment t ht)
        rw [hs] at hhead
        cases hhead
        rw [hd, hts t ht]
      simp [Reader.word, not_isWordStart_of_isDigit hdigit]
  simp [item, Reader.before, Reader.after, Reader.map, Reader.both, hword]

theorem takes_start {start : Option Nat} (hstart : ∀ id ∈ start, id < wordLimit)
    (hmore : ∀ t ∈ more.head?, t.isNumber = true) :
    Takes (Reader.optional (item "start")) (startTokens start) start more := by
  cases start with
  | none => exact Takes.optional_none fun cs hcs => item_eq_none hmore hcs "start"
  | some id => exact (takes_item spells_start (hstart id rfl)).optional

theorem takes_rows {rows : List (FileNode × List Char)} (hrows : ∀ r ∈ rows, Writable r.1 r.2) :
    Takes (Reader.many row) (rows.flatMap fun r => rowTokens r.1 r.2) (rows.map Prod.fst) [] := by
  refine Takes.many (t := .semicolon) (P := fun _ => True) rfl (by decide) (by simp [rowTokens]) trivial
    (fun r hr rest _ => ⟨takes_row (hrows r hr), trivial⟩) fun cs hcs => ?_
  rw [hcs.trimLeft_nil]
  rfl

theorem takes_game {maxId : Nat} {start : Option Nat} {rows : List (FileNode × List Char)}
    (hmax : maxId < wordLimit) (hstart : ∀ id ∈ start, id < wordLimit) (hrows : ∀ r ∈ rows, Writable r.1 r.2) :
    Takes game (fileTokens maxId start rows) ⟨maxId, start, rows.map Prod.fst⟩ [] := by
  have hnext : ∀ t ∈ (rows.flatMap (fun r : FileNode × List Char => rowTokens r.1 r.2) ++ []).head?,
      t.isNumber = true := by
    cases rows <;> simp [rowTokens, Token.isNumber]
  exact ((takes_item spells_parity hmax).both ((takes_start hstart hnext).both (takes_rows hrows))).map
    fun p => (⟨p.1, p.2.1, p.2.2⟩ : FileGame)

theorem game_trimLeft (cs : List Char) : game (trimLeft cs) = game cs := by
  simp only [game, item, Reader.map, Reader.both, Reader.before, Reader.after, Reader.padded, trimLeft_trimLeft]

end Readers

/-- Files are read back. Any text that lays out the tokens of a header, a start node if there is one and a row
for each node is read as these values, and the comments are dropped. -/
theorem file_texts_read_back {maxId : Nat} {start : Option Nat} {rows : List (FileNode × List Char)}
    (hmax : maxId < wordLimit) (hstart : ∀ id ∈ start, id < wordLimit) (hrows : ∀ r ∈ rows, Writable r.1 r.2)
    {text : List Char} (htext : Laid (fileTokens maxId start rows) text) :
    readGame? (String.ofList text) = some ⟨maxId, start, rows.map Prod.fst⟩ := by
  rw [← List.append_nil (fileTokens maxId start rows)] at htext
  obtain ⟨cs, hcs, heq⟩ := takes_game hmax hstart hrows text htext
  rw [game_trimLeft, hcs.trimLeft_nil] at heq
  rw [readGame?, String.toList_ofList, Reader.whole, heq]

/-- A name with semicolons and digits, and a comment with quotes. -/
def crowded : List (FileNode × List Char) :=
  [(⟨7, 18446744073709551615, .odd, [7, 0], some "a;, 1\n2"⟩, "x \"y\" 3".toList), (⟨0, 3, .even, [7], none⟩, [])]

def crowdedItems : List (Token × List Char) :=
  [(.parity, [' ']), (.number 7, []), (.semicolon, []), (.start, ['\n']), (.number 7, []), (.semicolon, ['\n']),
    (.number 7, [' ']), (.number 18446744073709551615, [' ']), (.number 1, ['\t', ' ']), (.number 7, [' ']),
    (.comma, []), (.number 0, []), (.quoted "a;, 1\n2", []), (.comment "x \"y\" 3".toList, []),
    (.semicolon, []), (.number 0, [' ']), (.number 3, [' ']), (.number 0, [' ']), (.number 7, [' ']),
    (.semicolon, ['\n'])]

theorem file_texts_read_back_crowded :
    readGame? "parity 7;start\n7;\n7 18446744073709551615 1\t 7 ,0\"a;, 1\n2\"x \"y\" 3;0 3 0 7 ;\n" =
      some ⟨7, some 7, crowded.map Prod.fst⟩ := by
  have htext : String.ofList (crowdedItems.flatMap fun i => i.1.spelling ++ i.2) =
      "parity 7;start\n7;\n7 18446744073709551615 1\t 7 ,0\"a;, 1\n2\"x \"y\" 3;0 3 0 7 ;\n" := by
    decide +kernel
  have hblanks : (crowdedItems.all fun i => i.2.all isBlank) = true := by decide +kernel
  have hlaid : Laid (crowdedItems.map Prod.fst) (crowdedItems.flatMap fun i => i.1.spelling ++ i.2) :=
    .of_gaps (by simpa only [List.all_eq_true] using hblanks) (by decide +kernel)
  have htokens : crowdedItems.map Prod.fst = fileTokens 7 (some 7) crowded := by decide +kernel
  have hrows : ∀ r ∈ crowded, Writable r.1 r.2 := by
    simp only [crowded, List.forall_mem_cons]
    refine ⟨⟨by decide, by decide, by decide, by decide, by decide, by decide +kernel, by decide +kernel⟩, ?_, by simp⟩
    exact ⟨by decide, by decide, by decide, by decide, by decide, by simp, by simp⟩
  rw [← htext]
  exact file_texts_read_back (by decide) (by decide) hrows (htokens ▸ hlaid)

end OmegaGames.PgSolver
