import OmegaGames.Proofs.StateLines

/-!
# Places in the body

A line of the body that describes a state decides about that state alone. What comes before the line has been
read already, and the lines after it do the same to whatever state stands there: they add edges to it until the
next state begins. So a text that is read with a bare number in some place is also read with the name and the
marks of that state, and nothing else of the automaton changes.
-/
namespace OmegaGames

namespace Text

theorem splitAll_of_not_mem {c : Char} {cs : List Char} (h : c ∉ cs) : splitAll c cs = [cs] := by
  induction cs with
  | nil => rfl
  | cons d cs ih =>
    rw [List.mem_cons, not_or] at h
    rw [splitAll, if_neg (Ne.symm h.1), ih h.2]

theorem splitAll_ne_nil (c : Char) (cs : List Char) : splitAll c cs ≠ [] := by
  cases cs with
  | nil => simp [splitAll]
  | cons d cs =>
    rw [splitAll]
    split
    · simp
    · split <;> simp

/-- A text is cut at every separator, wherever one looks for it first. -/
theorem splitAll_append (c : Char) (cs ds : List Char) :
    splitAll c (cs ++ c :: ds) = splitAll c cs ++ splitAll c ds := by
  induction cs with
  | nil => simp [splitAll]
  | cons d cs ih =>
    rw [List.cons_append, splitAll, splitAll, ih]
    by_cases hd : d = c
    · simp [hd]
    · cases hparts : splitAll c cs with
      | nil => exact absurd hparts (splitAll_ne_nil c cs)
      | cons part parts => simp [hd]

theorem map_snd_numberedLines (cs : List Char) :
    (numberedLines cs).map Prod.snd = (splitAll '\n' cs).map trim := by
  simp [numberedLines, Function.comp_def]

theorem exists_numberedLines_eq (before after : List Char) :
    ∃ line rest, ∀ text, '\n' ∉ text →
      numberedLines (before ++ '\n' :: (text ++ '\n' :: after)) =
        numberedLines before ++ (line, trim text) :: rest := by
  have hparts : ∀ text, '\n' ∉ text → splitAll '\n' (before ++ '\n' :: (text ++ '\n' :: after)) =
      splitAll '\n' before ++ text :: splitAll '\n' after := by
    intro text htext
    rw [splitAll_append, splitAll_append, splitAll_of_not_mem htext, List.singleton_append]
  refine ⟨(splitAll '\n' before).length + 1, (((splitAll '\n' after).map trim).zipIdx
    ((splitAll '\n' before).length + 1)).map fun p => (p.2 + 1, p.1), fun text htext => ?_⟩
  rw [numberedLines, hparts text htext]
  simp [numberedLines, List.zipIdx_append, List.zipIdx_cons]

end Text

namespace Hoa

open Text

/-! ## Lines of the header -/

/-- What a line of the header can do: end the header, add to it, or spoil it. -/
theorem readHeader_cons_cases (started : Bool) (h : Header) (line : Nat) (text : List Char) :
    (text = "--BODY--".toList ∧ ∀ rest, readHeader started h ((line, text) :: rest) = .ok (h, rest)) ∨
      (text ≠ "--BODY--".toList ∧ ∃ started' h', ∀ rest,
        readHeader started h ((line, text) :: rest) = readHeader started' h' rest) ∨
      ∃ e, ∀ rest, readHeader started h ((line, text) :: rest) = .error e := by
  simp only [readHeader]
  by_cases hempty : text.isEmpty = true
  · have hbody : text ≠ "--BODY--".toList := by
      rintro rfl
      cases hempty
    exact Or.inr (Or.inl ⟨hbody, started, h, fun _ => if_pos hempty⟩)
  · simp only [if_neg hempty]
    by_cases hbody : text = "--BODY--".toList
    · exact Or.inl ⟨hbody, fun _ => if_pos hbody⟩
    · simp only [if_neg hbody]
      apply Or.inr
      by_cases habort : text = "--ABORT--".toList
      · exact Or.inr ⟨.aborted, fun _ => if_pos habort⟩
      · simp only [if_neg habort]
        cases splitItem text with
        | error f => exact Or.inr ⟨.malformed line f, fun _ => rfl⟩
        | ok item =>
          cases started with
          | true =>
            cases hadd : h.add item.1 item.2 with
            | error f => exact Or.inr ⟨.malformed line f, fun _ => by simp [hadd]⟩
            | ok h' => exact Or.inl ⟨hbody, true, h', fun _ => by simp [hadd]⟩
          | false =>
            by_cases hkey : item.1 = "HOA"
            · exact Or.inl ⟨hbody, true, h, fun _ => by simp [hkey]⟩
            · exact Or.inr ⟨.malformed line .noVersion, fun _ => by simp [hkey]⟩

/-- A header that is read is read up to its end, whatever comes after. -/
theorem exists_readHeader_eq {front rest rest' : List NumberedLine} {header body : List (List Char)} {started : Bool}
    {h h' : Header} (hfront : front.map Prod.snd = header ++ "--BODY--".toList :: body)
    (hheader : "--BODY--".toList ∉ header) (hread : readHeader started h (front ++ rest) = .ok (h', rest')) :
    ∃ lines, lines.map Prod.snd = body ∧ ∀ more, readHeader started h (front ++ more) = .ok (h', lines ++ more) := by
  induction header generalizing front started h with
  | nil =>
    obtain ⟨⟨line, text⟩, lines, rfl, htext, hlines⟩ := List.map_eq_cons_iff.mp hfront
    rcases readHeader_cons_cases started h line text with ⟨-, hend⟩ | ⟨hbody, -⟩ | ⟨e, herror⟩
    · rw [List.cons_append, hend] at hread
      cases hread
      exact ⟨lines, hlines, fun more => hend (lines ++ more)⟩
    · exact absurd htext hbody
    · rw [List.cons_append, herror] at hread
      cases hread
  | cons text header ih =>
    obtain ⟨⟨line, text⟩, lines, rfl, rfl, hlines⟩ := List.map_eq_cons_iff.mp hfront
    rw [List.mem_cons, not_or] at hheader
    rcases readHeader_cons_cases started h line text with ⟨hbody, -⟩ | ⟨-, started', h'', hstep⟩ | ⟨e, herror⟩
    · exact absurd hbody.symm hheader.1
    · rw [List.cons_append, hstep] at hread
      obtain ⟨lines', hlines', hmore⟩ := ih hlines hheader.2 hread
      refine ⟨lines', hlines', fun more => ?_⟩
      rw [List.cons_append, hstep]
      exact hmore more
    · rw [List.cons_append, herror] at hread
      cases hread

/-! ## Lines of the body -/

def describesState (text : List Char) : Bool := (stripStart? "State:".toList text).isSome

variable {apCount : Nat} {states states' : List DescribedState}

theorem length_of_addLine {text : List Char} (h : addLine apCount states text = .ok states') :
    states'.length = states.length + (if describesState text then 1 else 0) := by
  rw [addLine] at h
  split at h
  · rename_i rest hrest
    obtain ⟨s, -, h⟩ := exists_of_bind_eq_ok h
    cases h
    rw [describesState, hrest]
    rfl
  · rename_i hrest
    cases states with
    | nil => cases h
    | cons s states =>
      obtain ⟨e, -, h⟩ := exists_of_bind_eq_ok h
      cases h
      rw [describesState, hrest]
      rfl

/-- A body that is read reaches every line before its end, with a state for each line that describes one. -/
theorem exists_readBody_eq {front rest : List NumberedLine} {result : List DescribedState}
    (hfront : "--END--".toList ∉ front.map Prod.snd) (hread : readBody apCount states (front ++ rest) = .ok result) :
    ∃ states', states'.length = states.length + (front.map Prod.snd).countP describesState ∧
      ∀ more, readBody apCount states (front ++ more) = readBody apCount states' more := by
  induction front generalizing states with
  | nil => exact ⟨states, rfl, fun _ => rfl⟩
  | cons numbered front ih =>
    obtain ⟨line, text⟩ := numbered
    rw [List.map_cons, List.mem_cons, not_or] at hfront
    simp only [List.cons_append, readBody, if_neg (Ne.symm hfront.1)] at hread ⊢
    by_cases hempty : text.isEmpty = true
    · simp only [if_pos hempty] at hread ⊢
      obtain ⟨states', hlen, hmore⟩ := ih hfront.2 hread
      refine ⟨states', ?_, hmore⟩
      rw [List.isEmpty_iff.mp hempty]
      simpa [describesState, stripStart?] using hlen
    · simp only [if_neg hempty] at hread ⊢
      by_cases habort : text = "--ABORT--".toList
      · simp only [if_pos habort] at hread
        cases hread
      · simp only [if_neg habort] at hread ⊢
        cases hline : addLine apCount states text with
        | error f =>
          rw [hline] at hread
          cases hread
        | ok states₁ =>
          rw [hline] at hread
          obtain ⟨states', hlen, hmore⟩ := ih hfront.2 hread
          refine ⟨states', ?_, hmore⟩
          rw [hlen, length_of_addLine hline, List.map_cons, List.countP_cons, Nat.add_assoc,
            Nat.add_comm (List.countP _ _)]

/-- What a line does after a state has begun: begin another, add an edge to it, or spoil the body. -/
theorem addLine_cases (apCount : Nat) (text : List Char) :
    (∃ s', ∀ states, addLine apCount states text = .ok (s' :: states)) ∨
      (∃ e, ∀ s states, addLine apCount (s :: states) text = .ok ({ s with edges := s.edges ++ [e] } :: states)) ∨
      ∃ f, ∀ s states, addLine apCount (s :: states) text = .error f := by
  cases hstart : stripStart? "State:".toList text with
  | some rest =>
    cases hstate : readState rest with
    | ok s' => exact Or.inl ⟨s', fun _ => by simp only [addLine, hstart, hstate]; rfl⟩
    | error f => exact Or.inr (Or.inr ⟨f, fun _ _ => by simp only [addLine, hstart, hstate]; rfl⟩)
  | none =>
    apply Or.inr
    cases hedge : readEdge apCount text with
    | ok e => exact Or.inl ⟨e, fun _ _ => by simp only [addLine, hstart, addEdge, hedge]; rfl⟩
    | error f => exact Or.inr ⟨f, fun _ _ => by simp only [addLine, hstart, addEdge, hedge]; rfl⟩

/-- The rest of a body adds the same edges and the same states after any state. -/
theorem exists_edges_of_readBody {lines : List NumberedLine} {s : DescribedState} {result : List DescribedState}
    (hread : readBody apCount (s :: states) lines = .ok result) :
    ∃ edges more, ∀ s' states', readBody apCount (s' :: states') lines =
      .ok (states'.reverse ++ { s' with edges := s'.edges ++ edges } :: more) := by
  induction lines generalizing s states with
  | nil => cases hread
  | cons numbered lines ih =>
    obtain ⟨line, text⟩ := numbered
    simp only [readBody] at hread ⊢
    by_cases hempty : text.isEmpty = true
    · simp only [if_pos hempty] at hread ⊢
      exact ih hread
    simp only [if_neg hempty] at hread ⊢
    by_cases hend : text = "--END--".toList
    · simp only [if_pos hend]
      exact ⟨[], [], fun s' states' => by simp⟩
    simp only [if_neg hend] at hread ⊢
    by_cases habort : text = "--ABORT--".toList
    · simp only [if_pos habort] at hread
      cases hread
    simp only [if_neg habort] at hread ⊢
    rcases addLine_cases apCount text with ⟨s', hline⟩ | ⟨e, hline⟩ | ⟨f, hline⟩
    · simp only [hline] at hread ⊢
      obtain ⟨edges, more, hmore⟩ := ih hread
      refine ⟨[], { s' with edges := s'.edges ++ edges } :: more, fun s'' states' => ?_⟩
      rw [hmore]
      simp
    · simp only [hline] at hread ⊢
      obtain ⟨edges, more, hmore⟩ := ih hread
      refine ⟨e :: edges, more, fun s' states' => ?_⟩
      rw [hmore]
      simp
    · simp only [hline] at hread
      cases hread

/-! ## The whole text -/

def withLine (before line after : List Char) : String := String.ofList (before ++ '\n' :: (line ++ '\n' :: after))

/-- A text that ends within a body, after as many lines that describe states. -/
def EndsInBody (before : List Char) (count : Nat) : Prop :=
  ∃ header body, (splitAll '\n' before).map trim = header ++ "--BODY--".toList :: body ∧
    "--BODY--".toList ∉ header ∧ "--END--".toList ∉ body ∧ body.countP describesState = count

theorem newline_not_mem_numerals (ns : List Nat) : '\n' ∉ numerals ns := by
  have hdigits : ∀ n, '\n' ∉ Nat.toDigits 10 n := by
    intro n hn
    cases isDigit_of_mem_toDigits hn
  induction ns with
  | nil => simp [numerals]
  | cons n ns ih =>
    cases ns with
    | nil => exact hdigits n
    | cons m ns =>
      rw [numerals, List.mem_append, List.mem_cons]
      · simp [hdigits n, ih]
      · simp

theorem mem_escape {c : Char} {cs : List Char} (h : c ∈ escape cs) : c = '\\' ∨ c ∈ cs := by
  obtain ⟨d, hd, hc⟩ := List.mem_flatMap.mp h
  rw [escapeChar] at hc
  split at hc
  · rcases List.mem_cons.mp hc with hc | hc
    · exact Or.inl hc
    · rw [List.mem_singleton.mp hc]
      exact Or.inr hd
  · rw [List.mem_singleton.mp hc]
    exact Or.inr hd

theorem newline_not_mem_stateLine {name : Option String} (hname : ∀ s ∈ name, '\n' ∉ s.toList) (id : Nat)
    (sets : Option (List Nat)) : '\n' ∉ stateLine id name sets := by
  have hid : '\n' ∉ Nat.toDigits 10 id := newline_not_mem_numerals [id]
  have htokens : '\n' ∉ stateTokens id name := by
    cases name with
    | none => simpa [stateTokens] using hid
    | some s =>
      have hescape : '\n' ∉ escape s.toList := by
        intro h
        rcases mem_escape h with h | h
        · cases h
        · exact hname s rfl h
      simp [stateTokens, quoted, hid, hescape]
  unfold stateLine
  cases sets with
  | none => simp [htokens]
  | some ms => simp [bracedMarks, htokens, newline_not_mem_numerals]

theorem countStates_with_state (h : Header) (before after : List DescribedState) (id : Nat) (name : Option String)
    (marks : List Nat) (edges : List DescribedEdge) :
    h.countStates (before ++ ⟨id, name, marks, edges⟩ :: after) =
      h.countStates (before ++ ⟨id, none, [], edges⟩ :: after) := by
  simp [Header.countStates, impliedStateCount]

/-- Marks within range are all that the checks of the whole ask for. -/
theorem rangeFault?_with_state {d : Description} {before after : List DescribedState} {id : Nat}
    {edges : List DescribedEdge} {marks : List Nat} (hfault : rangeFault? d = none)
    (hstates : d.states = before ++ ⟨id, none, [], edges⟩ :: after) (hmarks : ∀ m ∈ marks, m < d.acceptanceSets)
    (name : Option String) :
    rangeFault? { d with states := before ++ ⟨id, name, marks, edges⟩ :: after } = none := by
  obtain ⟨hrange, hstate, hedge, hcondition⟩ := rangeFault?_eq_none_iff.mp hfault
  have hid := hrange.id_lt
  have htarget := hrange.target_lt
  rw [hstates, List.forall_mem_append, List.forall_mem_cons] at hid htarget hstate hedge
  refine rangeFault?_eq_none_iff.mpr ⟨⟨?_, hrange.start_lt, ?_⟩, ?_, ?_, hcondition⟩
  · exact List.forall_mem_append.mpr ⟨hid.1, List.forall_mem_cons.mpr hid.2⟩
  · exact List.forall_mem_append.mpr ⟨htarget.1, List.forall_mem_cons.mpr htarget.2⟩
  · exact List.forall_mem_append.mpr ⟨hstate.1, List.forall_mem_cons.mpr ⟨hmarks, hstate.2.2⟩⟩
  · exact List.forall_mem_append.mpr ⟨hedge.1, List.forall_mem_cons.mpr hedge.2⟩

/-- With the name and the marks of a state the whole passes the checks as it does without them. -/
theorem assemble_with_state {h : Header} {condition : Nat × Acceptance} {before after : List DescribedState}
    {id : Nat} {edges : List DescribedEdge} {d : Description} {marks : List Nat}
    (hwhole : assemble h condition (before ++ ⟨id, none, [], edges⟩ :: after) = .ok d)
    (hmarks : ∀ m ∈ marks, m < d.acceptanceSets) (name : Option String) :
    assemble h condition (before ++ ⟨id, name, marks, edges⟩ :: after) =
      .ok { d with states := before ++ ⟨id, name, marks, edges⟩ :: after } := by
  obtain ⟨n, hcount, hfault, rfl⟩ := assemble_eq_ok_iff.mp hwhole
  refine assemble_eq_ok_iff.mpr ⟨n, ?_, rangeFault?_with_state hfault rfl hmarks name, rfl⟩
  rw [countStates_with_state, hcount]

/-- In place of a bare number, a line may give the name and the marks of the state. -/
theorem exists_states_of_read_withLine {id : Nat} {name : Option String} {sets : Option (List Nat)}
    (hid : id < wordLimit) (hname : ∀ s ∈ name, '\n' ∉ s.toList) (hsets : ∀ m ∈ sets.getD [], m < halfWordLimit)
    {before after : List Char} {count : Nat} {d : Description} (hbefore : EndsInBody before count)
    (hread : read (withLine before (stateLine id none none) after) = .ok d)
    (hrange : ∀ m ∈ sets.getD [], m < d.acceptanceSets) :
    ∃ pre edges post, pre.length = count ∧ d.states = pre ++ ⟨id, none, [], edges⟩ :: post ∧
      read (withLine before (stateLine id name sets) after) =
        .ok { d with states := pre ++ ⟨id, name, sortMarks (sets.getD []), edges⟩ :: post } := by
  obtain ⟨header, body, hlines, hheader, hbody, hcount⟩ := hbefore
  obtain ⟨line, rest, hnumbered⟩ := exists_numberedLines_eq before after
  obtain ⟨h, rest', condition, states, hreadHeader, hcondition, hreadBody, hwhole⟩ := read_eq_ok_iff.mp hread
  rw [withLine, String.toList_ofList, hnumbered _ (newline_not_mem_stateLine (by simp) id none)] at hreadHeader
  -- The header and the lines before leave the same states behind, whatever line comes next.
  obtain ⟨front, hfront, hall⟩ :=
    exists_readHeader_eq ((map_snd_numberedLines before).trans hlines) hheader hreadHeader
  cases (hall _).symm.trans hreadHeader
  obtain ⟨pre, hlen, hmore⟩ := exists_readBody_eq (hfront ▸ hbody) hreadBody
  rw [hmore, readBody_stateLine hid none (by simp)] at hreadBody
  obtain ⟨edges, post, hrest⟩ := exists_edges_of_readBody hreadBody
  obtain rfl : pre.reverse ++ ⟨id, none, [], edges⟩ :: post = states :=
    Except.ok.inj ((hrest ⟨id, none, [], []⟩ pre).symm.trans hreadBody)
  obtain ⟨n, -, -, hd⟩ := assemble_eq_ok_iff.mp hwhole
  refine ⟨pre.reverse, edges, post, ?_, hd ▸ rfl, ?_⟩
  · rw [List.length_reverse, hlen, hfront, hcount]
    exact Nat.zero_add count
  · have hmarks : ∀ m ∈ sortMarks (sets.getD []), m < d.acceptanceSets :=
      fun m hm => hrange m (mem_sortMarks.mp hm)
    refine read_eq_ok_iff.mpr ⟨h, front ++ (line, trim (stateLine id name sets)) :: rest, condition, _, ?_,
      hcondition, ?_, assemble_with_state hwhole hmarks name⟩
    · rw [withLine, String.toList_ofList, hnumbered _ (newline_not_mem_stateLine hname id sets)]
      exact hall _
    · rw [hmore, readBody_stateLine hid name hsets]
      exact hrest _ _

/-- The line of a state is read back. Whatever has been read before it, it adds a state with the number, the name
and the marks in order, each once. In a text that is read with the bare number in its place, the state of that
place has the name and the marks then, and all else stays as it was. -/
theorem state_line_read_back {id : Nat} {name : Option String} {sets : Option (List Nat)} (hid : id < wordLimit)
    (hname : ∀ s ∈ name, '\n' ∉ s.toList) (hsets : ∀ m ∈ sets.getD [], m < halfWordLimit) :
    ∃ marks : List Nat, marks.Pairwise (· < ·) ∧ (∀ m, m ∈ marks ↔ m ∈ sets.getD []) ∧
      (∀ apCount states line rest, readBody apCount states ((line, trim (stateLine id name sets)) :: rest) =
        readBody apCount (⟨id, name, marks, []⟩ :: states) rest) ∧
      ∀ before after count d, EndsInBody before count →
        read (withLine before (stateLine id none none) after) = .ok d →
        (∀ m ∈ sets.getD [], m < d.acceptanceSets) →
        ∃ pre edges post, pre.length = count ∧ d.states = pre ++ ⟨id, none, [], edges⟩ :: post ∧
          read (withLine before (stateLine id name sets) after) =
            .ok { d with states := pre ++ ⟨id, name, marks, edges⟩ :: post } := by
  refine ⟨sortMarks (sets.getD []), pairwise_sortMarks _, fun m => mem_sortMarks, ?_, ?_⟩
  · exact readBody_stateLine hid name hsets
  · intro before after count d hbefore hread hrange
    exact exists_states_of_read_withLine hid hname hsets hbefore hread hrange

/-- Ends after the first of two states. -/
def halfway : List Char :=
  "HOA: v1\nStates: 2\nAcceptance: 2 Inf(0) & Inf(1)\n--BODY--\nState: 1\n[t] 0".toList

/-- A name that holds all that is special outside of quotes. -/
def tangled : String := "a\" \x7b0\x7d \\ [t] 1: --END--"

theorem state_line_tangled_read_back : ∃ marks : List Nat, marks.Pairwise (· < ·) ∧ (∀ m, m ∈ marks ↔ m ∈ [1, 0, 1]) ∧
    stateLine 0 (some tangled) (some [1, 0, 1]) =
      "State: 0 \"a\\\" \x7b0\x7d \\\\ [t] 1: --END--\" \x7b1 0 1\x7d".toList ∧
    ∃ d s, read (withLine halfway (stateLine 0 (some tangled) (some [1, 0, 1])) "[t] 1\n--END--\n".toList) = .ok d ∧
      d.states[1]? = some s ∧ s.id = 0 ∧ s.name = some tangled ∧ s.marks = marks := by
  have hplace : EndsInBody halfway 1 :=
    ⟨["HOA: v1".toList, "States: 2".toList, "Acceptance: 2 Inf(0) & Inf(1)".toList],
      ["State: 1".toList, "[t] 0".toList], by decide +kernel, by decide +kernel, by decide +kernel, by decide +kernel⟩
  have hrun : ((read (withLine halfway (stateLine 0 none none) "[t] 1\n--END--\n".toList)).toOption.map
      Description.acceptanceSets) = some 2 := by decide +kernel
  obtain ⟨d, hd, hcount⟩ := Option.map_eq_some_iff.mp hrun
  obtain ⟨marks, hpairwise, hmem, -, hread⟩ :=
    @state_line_read_back 0 (some tangled) (some [1, 0, 1]) (by decide) (by decide +kernel) (by decide)
  obtain ⟨pre, edges, post, hlen, -, hfull⟩ :=
    hread halfway "[t] 1\n--END--\n".toList 1 d hplace (eq_ok_of_toOption hd) (by rw [hcount]; decide)
  refine ⟨marks, hpairwise, hmem, by decide +kernel, _, ⟨0, some tangled, marks, edges⟩, hfull, ?_, rfl, rfl, rfl⟩
  rw [List.getElem?_append_right (by omega), hlen]
  rfl

end Hoa

end OmegaGames
