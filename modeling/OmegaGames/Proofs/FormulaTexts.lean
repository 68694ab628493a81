import OmegaGames.Automaton.LtlTool
import OmegaGames.Proofs.Computations
import OmegaGames.Proofs.Interning
import OmegaGames.Proofs.SpacedReading

/-!
# Texts of formulas

While a formula is written its propositions are numbered, so text and numbering grow together. In the end the
text is that of the formula with each proposition spelled by its number, and the propositions are numbered in
the order of their first occurrence. Parentheses around every operator make the text readable in one way only,
so formula, text and numbering determine each other, and a tool that answers in terms of the numbers can be
understood in terms of the propositions.
-/
namespace OmegaGames

open Text

namespace Formula

/-! ## Numbering -/

def names : Formula → List String
  | true => []
  | false => []
  | prop name => [name]
  | unary _ f => names f
  | binary _ f g => names f ++ names g

def addName (t : Interner String) (name : String) : Interner String := (t.intern name).1

variable {f g : Formula} {t T : Interner String}

/-- The table after writing holds the names from before and those of the formula. -/
theorem write_snd (f : Formula) (t : Interner String) : (f.write t).2 = f.names.foldl addName t := by
  induction f generalizing t with
  | true => rfl
  | false => rfl
  | prop name => rfl
  | unary op f ih => exact ih t
  | binary op f g ihf ihg =>
    rw [names, List.foldl_append, ← ihf, ← ihg]
    rfl

theorem extends_foldl (t : Interner String) (as : List String) : t.Extends (as.foldl addName t) := by
  induction as generalizing t with
  | nil => exact .refl t
  | cons a as ih => exact (t.extends_intern a).trans (ih _)

theorem extends_write (f : Formula) (t : Interner String) : t.Extends (f.write t).2 := by
  rw [write_snd]
  exact extends_foldl t f.names

/-- The names in the order of their first occurrence. -/
structure Numbers (as : List String) (ps : List String) : Prop where
  nodup : ps.Nodup
  mem_iff : ∀ p, p ∈ ps ↔ p ∈ as
  ordered : ps.Pairwise fun p q => as.idxOf p < as.idxOf q

theorem numbers_foldl (as : List String) : Numbers as (as.foldl addName {}).values.toList := by
  induction as using List.reverseRecOn with
  | nil => exact ⟨.nil, by simp, .nil⟩
  | append_singleton as a ih =>
    have hkeep : (as.foldl addName {}).values.toList.Pairwise
        fun p q => (as ++ [a]).idxOf p < (as ++ [a]).idxOf q := by
      apply ih.ordered.imp_of_mem
      intro p q hp hq hlt
      rwa [List.idxOf_append_of_mem ((ih.mem_iff p).mp hp), List.idxOf_append_of_mem ((ih.mem_iff q).mp hq)]
    rw [List.foldl_append, List.foldl_cons, List.foldl_nil, addName]
    rcases (as.foldl addName {}).intern_cases a with ⟨i, hi, heq⟩ | ⟨hnew, heq⟩
    · have ha : a ∈ as := (ih.mem_iff a).mp (Interner.mem_of_get? hi)
      rw [heq]
      refine ⟨ih.nodup, fun p => ?_, hkeep⟩
      rw [ih.mem_iff, List.mem_append, List.mem_singleton]
      exact ⟨Or.inl, fun h => h.elim id fun hp => hp ▸ ha⟩
    · have ha : a ∉ as := fun h => hnew ((ih.mem_iff a).mpr h)
      rw [heq, Array.toList_push]
      refine ⟨List.concat_eq_append ▸ ih.nodup.concat hnew, fun p => ?_, ?_⟩
      · rw [List.mem_append, List.mem_append, ih.mem_iff]
      · refine List.pairwise_append.mpr ⟨hkeep, List.pairwise_singleton _ a, ?_⟩
        intro p hp q hq
        have hpas := (ih.mem_iff p).mp hp
        rw [List.mem_singleton.mp hq, List.idxOf_append_of_mem hpas, List.idxOf_append_of_notMem ha]
        have hlt := List.idxOf_lt_length_iff.mpr hpas
        omega

theorem numbers_render (f : Formula) : Numbers f.names f.render.propositions := by
  have hprops : f.render.propositions = (f.names.foldl addName {}).values.toList := by
    rw [← write_snd]
    rfl
  rw [hprops]
  exact numbers_foldl f.names

/-! ## Spelling -/

def apName (i : Nat) : List Char := "ap".toList ++ Nat.toDigits 10 i

def spell (number : String → Nat) : Formula → List Char
  | true => "true".toList
  | false => "false".toList
  | prop name => apName (number name)
  | unary op f => '(' :: (op.sign.toList ++ (spell number f ++ [')']))
  | binary op f g =>
    '(' :: (spell number f ++ ' ' :: (op.sign.toList ++ ' ' :: (spell number g ++ [')'])))

section Equations

variable (number : String → Nat) (op : UnaryOp) (op' : BinaryOp) (f g : Formula) (p : String) (t : Interner String)

theorem spell_prop : (prop p).spell number = apName (number p) := rfl

theorem spell_unary : (unary op f).spell number = '(' :: (op.sign.toList ++ (f.spell number ++ [')'])) := rfl

theorem spell_binary : (binary op' f g).spell number =
    '(' :: (f.spell number ++ ' ' :: (op'.sign.toList ++ ' ' :: (g.spell number ++ [')']))) := rfl

theorem write_unary : ((unary op f).write t).1 = ['('] ++ op.sign.toList ++ (f.write t).1 ++ [')'] := rfl

theorem write_binary : ((binary op' f g).write t).1 =
    ['('] ++ (f.write t).1 ++ [' '] ++ op'.sign.toList ++ [' '] ++ (g.write (f.write t).2).1 ++ [')'] := rfl

end Equations

/-- What is written while the table grows is spelled by any table that it grows into. -/
theorem write_fst (hT : (f.write t).2.Extends T) (hdistinct : T.Distinct) :
    (f.write t).1 = f.spell fun p => T.values.toList.idxOf p := by
  induction f generalizing t with
  | true => rfl
  | false => rfl
  | prop name =>
    have hi : T.get? (t.intern name).2.1 = some name := hT.get? (t.get?_intern name)
    rw [Interner.get?_eq] at hi
    obtain ⟨hlt, hname⟩ := List.getElem?_eq_some_iff.mp hi
    have hidx := List.Nodup.idxOf_getElem hdistinct _ hlt
    rw [hname] at hidx
    rw [spell_prop, hidx]
    rfl
  | unary op f ih => simp [write_unary, spell_unary, ih hT]
  | binary op f g ihf ihg =>
    have hf := (extends_write g (f.write t).2).trans hT
    simp [write_binary, spell_binary, ihf hf, ihg hT]

theorem text_render (f : Formula) :
    f.render.text = String.ofList (f.spell fun p => f.render.propositions.idxOf p) := by
  have hdistinct : (f.write {}).2.Distinct := (numbers_render f).nodup
  have htext : f.render.text = String.ofList (f.write {}).1 := rfl
  rw [htext, write_fst (.refl _) hdistinct]
  rfl

/-! ## Unique readability -/

/-- Numbers end where no digit follows. -/
theorem toDigits_append_inj {m n : Nat} {r s : List Char} (hr : ∀ c ∈ r.head?, isDigit c = Bool.false)
    (hs : ∀ c ∈ s.head?, isDigit c = Bool.false) (h : Nat.toDigits 10 m ++ r = Nat.toDigits 10 n ++ s) :
    m = n ∧ r = s := by
  have hread := Reader.digits_toDigits_append m hr
  rw [h, Reader.digits_toDigits_append n hs, Option.some.injEq, Prod.mk.injEq] at hread
  refine ⟨?_, hread.2.symm⟩
  rw [← digitsValue_toDigits m, ← hread.1, digitsValue_toDigits]

theorem unary_sign_append_inj {op op' : UnaryOp} {r s : List Char}
    (h : op.sign.toList ++ r = op'.sign.toList ++ s) : op = op' ∧ r = s := by
  cases op <;> cases op' <;> simp_all [UnaryOp.sign]

theorem binary_sign_append_inj {op op' : BinaryOp} {r s : List Char}
    (h : op.sign.toList ++ ' ' :: r = op'.sign.toList ++ ' ' :: s) : op = op' ∧ r = s := by
  cases op <;> cases op' <;> simp_all [BinaryOp.sign]

def initial : Formula → Char
  | true => 't'
  | false => 'f'
  | prop _ => 'a'
  | unary _ _ => '('
  | binary _ _ _ => '('

theorem exists_spell_eq (number : String → Nat) (f : Formula) : ∃ cs, f.spell number = f.initial :: cs := by
  cases f <;> exact ⟨_, rfl⟩

/-- After an opening parenthesis, an operator cannot be taken for a formula. -/
theorem sign_append_ne_spell (number : String → Nat) (op : UnaryOp) (f : Formula) (r s : List Char) :
    op.sign.toList ++ r ≠ f.spell number ++ s := by
  obtain ⟨cs, hcs⟩ := f.exists_spell_eq number
  intro h
  rw [hcs] at h
  cases op <;> cases f <;> simp [UnaryOp.sign, initial] at h

theorem initial_eq_of_spell_append {number : String → Nat} {r s : List Char}
    (h : f.spell number ++ r = g.spell number ++ s) : f.initial = g.initial := by
  obtain ⟨cs, hcs⟩ := f.exists_spell_eq number
  obtain ⟨ds, hds⟩ := g.exists_spell_eq number
  rw [hcs, hds, List.cons_append, List.cons_append] at h
  exact (List.cons.inj h).1

/-- A text determines its formula and where it ends. -/
theorem spell_append_inj {number : String → Nat} {r s : List Char}
    (hnumber : ∀ p ∈ f.names, ∀ q ∈ g.names, number p = number q → p = q)
    (hr : ∀ c ∈ r.head?, isDigit c = Bool.false) (hs : ∀ c ∈ s.head?, isDigit c = Bool.false)
    (h : f.spell number ++ r = g.spell number ++ s) : f = g ∧ r = s := by
  induction f generalizing g r s with
  | true =>
    have hinitial := initial_eq_of_spell_append h
    cases g <;> simp [initial] at hinitial
    exact ⟨rfl, List.append_cancel_left h⟩
  | false =>
    have hinitial := initial_eq_of_spell_append h
    cases g <;> simp [initial] at hinitial
    exact ⟨rfl, List.append_cancel_left h⟩
  | prop p =>
    have hinitial := initial_eq_of_spell_append h
    cases g with
    | prop q =>
      rw [spell_prop, spell_prop, apName, apName, List.append_assoc, List.append_assoc] at h
      obtain ⟨hpq, hrs⟩ := toDigits_append_inj hr hs (List.append_cancel_left h)
      rw [hnumber p (List.mem_singleton_self p) q (List.mem_singleton_self q) hpq]
      exact ⟨rfl, hrs⟩
    | _ => simp [initial] at hinitial
  | unary op f ih =>
    have hinitial := initial_eq_of_spell_append h
    cases g with
    | unary op' f' =>
      simp only [spell_unary, List.cons_append, List.append_assoc, List.cons.injEq, true_and] at h
      obtain ⟨rfl, hoperand⟩ := unary_sign_append_inj h
      obtain ⟨rfl, hend⟩ := ih (g := f') hnumber (by simp [isDigit]) (by simp [isDigit]) hoperand
      exact ⟨rfl, (List.cons.inj hend).2⟩
    | binary op' f' g' =>
      simp only [spell_unary, spell_binary, List.cons_append, List.append_assoc, List.cons.injEq, true_and] at h
      exact absurd h (sign_append_ne_spell number op f' _ _)
    | _ => simp [initial] at hinitial
  | binary op f₁ f₂ ih₁ ih₂ =>
    have hinitial := initial_eq_of_spell_append h
    cases g with
    | unary op' f' =>
      simp only [spell_unary, spell_binary, List.cons_append, List.append_assoc, List.cons.injEq, true_and] at h
      exact absurd h.symm (sign_append_ne_spell number op' f₁ _ _)
    | binary op' g₁ g₂ =>
      simp only [spell_binary, List.cons_append, List.append_assoc, List.cons.injEq, true_and] at h
      -- The left operand ends at a space and the right one at a parenthesis.
      obtain ⟨rfl, hsign⟩ :=
        ih₁ (fun p hp q hq => hnumber p (List.mem_append_left _ hp) q (List.mem_append_left _ hq))
          (by simp [isDigit]) (by simp [isDigit]) h
      obtain ⟨rfl, hright⟩ := binary_sign_append_inj (List.cons.inj hsign).2
      obtain ⟨rfl, hend⟩ :=
        ih₂ (fun p hp q hq => hnumber p (List.mem_append_right _ hp) q (List.mem_append_right _ hq))
          (by simp [isDigit]) (by simp [isDigit]) hright
      exact ⟨rfl, (List.cons.inj hend).2⟩
    | _ => simp [initial] at hinitial

theorem eq_of_render_eq (htext : f.render.text = g.render.text)
    (hprops : f.render.propositions = g.render.propositions) : f = g := by
  rw [text_render, text_render, ← hprops, String.ofList_inj] at htext
  have hnumber : ∀ p ∈ f.names, ∀ q ∈ g.names,
      f.render.propositions.idxOf p = f.render.propositions.idxOf q → p = q := by
    intro p hp q hq hpq
    exact (List.idxOf_inj (((numbers_render f).mem_iff p).mpr hp)).mp hpq
  have hspell : (f.spell fun p => f.render.propositions.idxOf p) ++ [] =
      (g.spell fun p => f.render.propositions.idxOf p) ++ [] := by rw [htext]
  exact (spell_append_inj hnumber (by simp) (by simp) hspell).1

end Formula

/-! ## The answer of the tool -/

namespace LtlTool

open Formula

variable {r : Rendered} {i : Nat} {ap p : String}

theorem proposition?_apName (r : Rendered) (hi : i < wordLimit) :
    proposition? r (String.ofList (apName i)) = r.propositions[i]? := by
  have hname : (String.ofList (apName i)).toList = "ap".toList ++ Nat.toDigits 10 i := String.toList_ofList
  simp only [proposition?, hname, stripStart?_append, readNumeral?_toDigits hi, Option.bind_eq_bind,
    Option.bind_some]

/-- The name is the one under which the proposition has been written. -/
def StandsFor (r : Rendered) (ap p : String) : Prop :=
  ∃ i, ap = String.ofList (apName i) ∧ r.propositions[i]? = some p

theorem StandsFor.proposition?_eq (h : StandsFor r ap p) (hlen : r.propositions.length ≤ wordLimit) :
    proposition? r ap = some p := by
  obtain ⟨i, rfl, hp⟩ := h
  obtain ⟨hi, -⟩ := List.getElem?_eq_some_iff.mp hp
  rw [proposition?_apName r (hi.trans_le hlen), hp]

theorem exists_restoreNames_eq (command : String) (hlen : r.propositions.length ≤ wordLimit) {aps : List String}
    (haps : ∀ ap ∈ aps, ∃ i < r.propositions.length, ap = String.ofList (apName i)) :
    ∃ names, restoreNames command r aps = .ok names ∧ List.Forall₂ (StandsFor r) aps names := by
  have hstands : ∀ ap ∈ aps, ∃ p, StandsFor r ap p := by
    intro ap hap
    obtain ⟨i, hi, hname⟩ := haps ap hap
    exact ⟨r.propositions.get ⟨i, hi⟩, i, hname, List.getElem?_eq_getElem hi⟩
  choose! name hname using hstands
  have hnames : List.Forall₂ (StandsFor r) aps (aps.map name) :=
    List.forall₂_map_right_iff.mpr (List.forall₂_same.mpr hname)
  refine ⟨aps.map name, mapM_eq_ok_of_forall₂ (hnames.imp fun ap p hp => ?_), hnames⟩
  rw [hp.proposition?_eq hlen]

theorem automaton_eq_ok {t : LtlTool} {run : ProgramRunner} {f : Formula} {out : ProgramOutput} {d : Description}
    {names : List String} (hrun : run t.program (t.arguments f.render) = some out) (hstatus : out.status = 0)
    (hread : Hoa.read (String.ofList (decodeLossy out.stdout)) = .ok d)
    (hnames : restoreNames (t.commandLine f.render) f.render d.aps = .ok names) :
    t.automaton run f = .ok { d with aps := names } := by
  simp only [automaton, hrun, hstatus, hread, hnames]
  rfl

end LtlTool

/-- Writing loses nothing and is undone in the answer of the tool. Different formulas differ in their text or in
their propositions. These are the names that occur in the formula, in the order of their first occurrence, and
in the text each of them is spelled by its number. When the tool answers with an automaton over such
spellings, the answer is that automaton over the propositions that they stand for. -/
theorem formula_texts_faithful (f : Formula) :
    (∀ g : Formula, f.render.text = g.render.text → f.render.propositions = g.render.propositions → f = g) ∧
    Formula.Numbers f.names f.render.propositions ∧
    f.render.text = String.ofList (f.spell fun p => f.render.propositions.idxOf p) ∧
    ∀ (t : LtlTool) (run : ProgramRunner) (out : ProgramOutput) (d : Description),
      run t.program (t.arguments f.render) = some out → out.status = 0 →
      Hoa.read (String.ofList (decodeLossy out.stdout)) = .ok d →
      f.render.propositions.length ≤ wordLimit →
      (∀ ap ∈ d.aps, ∃ i < f.render.propositions.length, ap = String.ofList (Formula.apName i)) →
      ∃ names, t.automaton run f = .ok { d with aps := names } ∧
        List.Forall₂ (LtlTool.StandsFor f.render) d.aps names := by
  refine ⟨fun g => Formula.eq_of_render_eq, f.numbers_render, f.text_render, ?_⟩
  intro t run out d hrun hstatus hread hlen haps
  obtain ⟨names, hrestore, hnames⟩ := LtlTool.exists_restoreNames_eq (t.commandLine f.render) hlen haps
  exact ⟨names, LtlTool.automaton_eq_ok hrun hstatus hread hrestore, hnames⟩

/-- No `b` up to an `a`, from which on `b` holds. -/
def precedence : Formula :=
  .binary .strongUntil (.unary .not (.prop "b")) (.binary .and (.prop "a") (.binary .release .false (.prop "b")))

/-- Lists the second proposition first. -/
def shuffled : String :=
  "HOA: v1\nStates: 1\nStart: 0\nAP: 2 \"ap1\" \"ap0\"\nAcceptance: 1 Inf(0)\n" ++
    "--BODY--\nState: 0 \x7b0\x7d\n[0&!1] 0\n--END--\n"

def answerShuffled : ProgramRunner := fun _ _ => some ⟨0, shuffled.toList.map fun c => c.toNat.toUInt8, []⟩

theorem formula_texts_faithful_shuffled : precedence.render.text = "((!ap0) U (ap1 & (false R ap0)))" ∧
    precedence.render.propositions = ["b", "a"] ∧
    ∃ d names, Hoa.read shuffled = .ok d ∧ d.aps = ["ap1", "ap0"] ∧
      ({} : LtlTool).automaton answerShuffled precedence = .ok { d with aps := names } ∧
      List.Forall₂ (LtlTool.StandsFor precedence.render) d.aps names := by
  have hprops : precedence.render.propositions = ["b", "a"] := by decide +kernel
  have hdecode : String.ofList (decodeLossy (shuffled.toList.map fun c => c.toNat.toUInt8)) = shuffled := by
    decide +kernel
  have hrun : (Hoa.read shuffled).toOption.map Description.aps = some ["ap1", "ap0"] := by decide +kernel
  obtain ⟨d, hd, haps⟩ := Option.map_eq_some_iff.mp hrun
  have hread := eq_ok_of_toOption hd
  obtain ⟨-, -, -, hanswer⟩ := formula_texts_faithful precedence
  obtain ⟨names, hauto, hnames⟩ := hanswer {} answerShuffled _ d rfl rfl (hdecode.symm ▸ hread)
    (by rw [hprops]; decide) (by rw [hprops, haps]; decide +kernel)
  exact ⟨by decide +kernel, hprops, d, names, hread, haps, hauto, hnames⟩

end OmegaGames
