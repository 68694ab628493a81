import OmegaGames.PgSolver.Conversion
import OmegaGames.PgSolver.Format
import OmegaGames.Proofs.Computations
import OmegaGames.Proofs.Plays
import OmegaGames.Proofs.WinningStrategies

/-!
# Games from files

A file names its nodes by numbers of its own and lets the greatest priority win; a game counts its nodes and
lets the least priority win. If no number is declared twice and every successor is declared, the conversion
gives a game with the same graph, and as priorities are reflected at an even number, every set of nodes and
with it every cycle has the same winner on both sides.
-/
namespace OmegaGames

/-! ## What readers give -/

namespace Text.Reader

variable {α β : Type} {r : Reader α} {s : Reader β} {P : α → Prop} {Q : β → Prop}

/-- All values that the reader takes off a text have the property. -/
def Ensures (r : Reader α) (P : α → Prop) : Prop := ∀ cs a rest, r cs = some (a, rest) → P a

theorem Ensures.map {f : α → β} (h : Ensures r P) (hf : ∀ a, P a → Q (f a)) : Ensures (Reader.map f r) Q := by
  intro cs b rest hb
  obtain ⟨⟨a, rest'⟩, ha, heq⟩ := Option.map_eq_some_iff.mp hb
  cases heq
  exact hf a (h cs a _ ha)

theorem Ensures.padded (h : Ensures r P) : Ensures (Reader.padded r) P := by
  intro cs a rest ha
  obtain ⟨⟨a', rest'⟩, ha', heq⟩ := Option.map_eq_some_iff.mp ha
  cases heq
  exact h _ _ _ ha'

theorem exists_of_both_eq_some {cs rest : List Char} {p : α × β} (h : Reader.both r s cs = some (p, rest)) :
    ∃ mid, r cs = some (p.1, mid) ∧ s mid = some (p.2, rest) := by
  obtain ⟨⟨a, mid⟩, ha, h⟩ := Option.bind_eq_some_iff.mp h
  obtain ⟨⟨b, rest'⟩, hb, h⟩ := Option.bind_eq_some_iff.mp h
  cases h
  exact ⟨mid, ha, hb⟩

theorem Ensures.both_left (h : Ensures r P) (s : Reader β) : Ensures (Reader.both r s) fun p => P p.1 := by
  intro cs p rest hp
  obtain ⟨mid, ha, -⟩ := exists_of_both_eq_some hp
  exact h cs p.1 mid ha

theorem Ensures.both_right (h : Ensures s Q) (r : Reader α) : Ensures (Reader.both r s) fun p => Q p.2 := by
  intro cs p rest hp
  obtain ⟨mid, -, hb⟩ := exists_of_both_eq_some hp
  exact h mid p.2 rest hb

theorem Ensures.or {r' : Reader α} (h : Ensures r P) (h' : Ensures r' P) : Ensures (Reader.or r r') P := by
  intro cs a rest ha
  rw [Reader.or] at ha
  split at ha
  next x hx => exact h cs a rest (hx.trans ha)
  next => exact h' cs a rest ha

theorem Ensures.many (h : Ensures r P) : Ensures (Reader.many r) fun as => ∀ a ∈ as, P a := by
  have hupTo : ∀ n cs, ∀ a ∈ (upTo r n cs).1, P a := by
    intro n
    induction n with
    | zero =>
      intro cs a ha
      cases ha
    | succ n ih =>
      intro cs
      cases hr : r cs with
      | none => simp [upTo, hr]
      | some p => simpa [upTo, hr] using ⟨h cs p.1 p.2 hr, ih p.2⟩
  intro cs as rest has
  rw [Reader.many, Option.some.injEq] at has
  have hall := hupTo cs.length cs
  rwa [has] at hall

end Text.Reader

namespace PgSolver

open Text

/-! ## Rows -/

structure FileNode.Playable (n : FileNode) : Prop where
  owner_ne : n.owner ≠ .stochastic
  successors_ne : n.successors ≠ []

theorem ensures_player : Reader.Ensures player (· ≠ .stochastic) := by
  apply Reader.Ensures.padded
  have hchar : ∀ d, Reader.Ensures (Reader.char d) fun _ => True := fun _ _ _ _ _ => trivial
  exact ((hchar '0').map fun _ _ => by simp).or ((hchar '1').map fun _ _ => by simp)

theorem ensures_successors : Reader.Ensures successors (· ≠ []) := by
  have hboth : ∀ r : Reader (Nat × List Nat), Reader.Ensures r fun _ => True := fun _ _ _ _ _ => trivial
  exact (hboth _).map (Q := (· ≠ [])) fun p _ => List.cons_ne_nil p.1 p.2

theorem ensures_row : Reader.Ensures row FileNode.Playable := by
  intro cs n rest hrow
  have howner : Reader.Ensures row fun n => n.owner ≠ .stochastic :=
    (((ensures_player.both_left _).both_right _).both_right _).map fun _ h => h
  have hsuccessors : Reader.Ensures row fun n => n.successors ≠ [] :=
    ((((ensures_successors.both_left _).both_right _).both_right _).both_right _).map fun _ h => h
  exact ⟨howner cs n rest hrow, hsuccessors cs n rest hrow⟩

theorem playable_of_readGame? {source : String} {f : FileGame} (h : readGame? source = some f) :
    ∀ n ∈ f.nodes, n.Playable := by
  have hgame : Reader.Ensures game fun f => ∀ n ∈ f.nodes, n.Playable :=
    ((ensures_row.many.both_right _).both_right _).map fun _ h => h
  rw [readGame?, Reader.whole] at h
  split at h
  next f' hf =>
    cases h
    exact hgame _ f [] hf
  next => cases h

namespace FileGame

variable {W : Type} {f : FileGame} {n : FileNode}

def numbers (f : FileGame) : List Nat := f.nodes.map FileNode.id

def Closed (f : FileGame) : Prop := ∀ n ∈ f.nodes, ∀ s ∈ n.successors, s ∈ f.numbers

/-! ## Reflection -/

theorem top_mod_two (f : FileGame) : f.top % 2 = 0 := by
  rw [top]
  split <;> omega

theorem priority_le_top (hn : n ∈ f.nodes) : n.priority ≤ f.top := by
  have hmem : n.priority ∈ f.nodes.map FileNode.priority := List.mem_map_of_mem hn
  rw [top]
  split
  next p hp =>
    have hle := (List.max?_eq_some_iff.mp hp).2 n.priority hmem
    omega
  next hnone =>
    rw [List.max?_eq_none_iff.mp hnone] at hmem
    cases hmem

theorem top_lt (h : ∀ n ∈ f.nodes, n.priority < infinitePriority) : f.top < infinitePriority := by
  have hodd : infinitePriority % 2 = 1 := by decide
  rw [top]
  split
  next p hp =>
    obtain ⟨n, hn, rfl⟩ := List.mem_map.mp (List.max?_eq_some_iff.mp hp).1
    have hlt := h n hn
    omega
  next => decide

/-! ## Repeated numbers -/

theorem firstRepeated?_of_mem {a : Nat} {seen : List Nat} (ha : a ∈ seen) (ids : List Nat) :
    firstRepeated? seen (a :: ids) = some a := by
  simp [firstRepeated?, ha]

theorem firstRepeated?_of_notMem {a : Nat} {seen : List Nat} (ha : a ∉ seen) (ids : List Nat) :
    firstRepeated? seen (a :: ids) = firstRepeated? (a :: seen) ids := by
  simp [firstRepeated?, ha]

theorem firstRepeated?_eq_none_iff {seen ids : List Nat} :
    firstRepeated? seen ids = none ↔ ids.Nodup ∧ ∀ id ∈ ids, id ∉ seen := by
  induction ids generalizing seen with
  | nil => simp [firstRepeated?]
  | cons a ids ih =>
    by_cases ha : a ∈ seen
    · simp [firstRepeated?_of_mem ha, ha]
    · rw [firstRepeated?_of_notMem ha, ih, List.nodup_cons, List.forall_mem_cons]
      simp only [List.mem_cons, not_or]
      constructor
      · rintro ⟨hnodup, h⟩
        exact ⟨⟨fun hmem => (h a hmem).1 rfl, hnodup⟩, ha, fun id hid => (h id hid).2⟩
      · rintro ⟨⟨hmem, hnodup⟩, -, h⟩
        exact ⟨hnodup, fun id hid => ⟨fun heq => hmem (heq ▸ hid), h id hid⟩⟩

theorem exists_of_firstRepeated?_eq_some {seen ids : List Nat} {id : Nat}
    (h : firstRepeated? seen ids = some id) :
    ∃ before after, ids = before ++ id :: after ∧ before.Nodup ∧ (∀ a ∈ before, a ∉ seen) ∧
      (id ∈ seen ∨ id ∈ before) := by
  induction ids generalizing seen with
  | nil => cases h
  | cons a ids ih =>
    by_cases ha : a ∈ seen
    · rw [firstRepeated?_of_mem ha, Option.some.injEq] at h
      exact ⟨[], ids, by rw [h]; rfl, .nil, by simp, .inl (h ▸ ha)⟩
    · rw [firstRepeated?_of_notMem ha] at h
      obtain ⟨before, after, rfl, hnodup, hseen, hid⟩ := ih h
      refine ⟨a :: before, after, rfl, List.nodup_cons.mpr ⟨fun hmem => ?_, hnodup⟩, ?_, ?_⟩
      · exact hseen a hmem (List.mem_cons_self ..)
      · intro b hb
        rcases List.mem_cons.mp hb with rfl | hb
        · exact ha
        · exact fun hmem => hseen b hb (List.mem_cons_of_mem a hmem)
      · rcases hid with hid | hid
        · rcases List.mem_cons.mp hid with rfl | hid
          · exact .inr (List.mem_cons_self ..)
          · exact .inl hid
        · exact .inr (List.mem_cons_of_mem a hid)

/-! ## Nodes -/

section Node

variable {ids : List Nat} {top : Nat}

theorem mem_of_idxOf?_eq_some {s v : Nat} (h : ids.toArray.idxOf? s = some v) : s ∈ ids := by
  by_contra hnot
  rw [List.idxOf?_toArray, List.idxOf?_eq_none_iff.mpr hnot] at h
  cases h

theorem idxOf?_eq_some_iff_of_nodup (hnodup : ids.Nodup) {s v : Nat} :
    ids.toArray.idxOf? s = some v ↔ ids[v]? = some s := by
  rw [List.idxOf?_toArray, List.idxOf?_eq_some_iff, List.getElem?_eq_some_iff]
  constructor
  · rintro ⟨hv, hs, -⟩
    exact ⟨hv, hs⟩
  · rintro ⟨hv, rfl⟩
    refine ⟨hv, rfl, fun j hj heq => ?_⟩
    rw [hnodup.getElem_inj_iff] at heq
    omega

/-- A node that is converted keeps its player, and its edges lead where its successors stand. -/
structure Converts (ids : List Nat) (top : Nat) (n : FileNode) (m : Node W) : Prop where
  owner : m.owner = n.owner
  priority : m.priority = top - n.priority
  edges : List.Forall₂ (fun s e => ids.toArray.idxOf? s = some e.target) n.successors m.edges

theorem converts_of_convertNode [Scalar W] {m : Node W} (h : convertNode ids.toArray top n = .ok m) :
    Converts ids top n m := by
  obtain ⟨edges, hedges, h⟩ := exists_of_bind_eq_ok h
  cases h
  refine ⟨rfl, rfl, (forall₂_of_mapM_eq_ok hedges).imp fun s e he => ?_⟩
  split at he
  next v hv =>
    cases he
    exact hv
  next => cases he

theorem Converts.mem_of_mem {m : Node W} (h : Converts ids top n m) {s : Nat} (hs : s ∈ n.successors) :
    s ∈ ids := by
  have hpairs : List.Forall₂ (fun s (e : Edge W) => s ∈ ids ∧ ids.toArray.idxOf? s = some e.target)
      n.successors m.edges :=
    h.edges.imp fun s e he => ⟨mem_of_idxOf?_eq_some he, he⟩
  exact ((List.forall₂_and_left _ _).mp hpairs).1 s hs

/-- Conversion of a node stops at its first successor that is not declared. -/
theorem exists_of_convertNode_eq_error [Scalar W] {e : ConversionError}
    (h : convertNode (W := W) ids.toArray top n = .error e) :
    ∃ before s after, n.successors = before ++ s :: after ∧ (∀ t ∈ before, t ∈ ids) ∧ s ∉ ids ∧
      e = .unknownSuccessor n.id s := by
  rcases bind_eq_error h with h | ⟨edges, -, h⟩
  · obtain ⟨before, s, after, hsplit, hbefore, hs⟩ := exists_of_mapM_eq_error h
    refine ⟨before, s, after, hsplit, fun t ht => ?_, ?_⟩
    · obtain ⟨edge, hedge⟩ := hbefore t ht
      split at hedge
      next v hv => exact mem_of_idxOf?_eq_some hv
      next => cases hedge
    · split at hs
      next => cases hs
      next hnone =>
        cases hs
        exact ⟨by simpa using Array.idxOf?_eq_none_iff.mp hnone, rfl⟩
  · cases h

end Node

/-! ## Success and failure -/

/-- A successor that is not declared, with all successors before it declared. -/
def FirstUndeclared (f : FileGame) (n : FileNode) (s : Nat) : Prop :=
  ∃ before after ss ts, f.nodes = before ++ n :: after ∧ n.successors = ss ++ s :: ts ∧
    (∀ m ∈ before, ∀ t ∈ m.successors, t ∈ f.numbers) ∧ (∀ t ∈ ss, t ∈ f.numbers) ∧ s ∉ f.numbers

def FirstRepeated (f : FileGame) (id : Nat) : Prop :=
  ∃ before after, f.numbers = before ++ id :: after ∧ before.Nodup ∧ id ∈ before

theorem FirstRepeated.not_nodup {id : Nat} (h : f.FirstRepeated id) : ¬ f.numbers.Nodup := by
  obtain ⟨before, after, hsplit, -, hid⟩ := h
  rw [hsplit]
  intro hnodup
  exact (List.nodup_append.mp hnodup).2.2 id hid id (List.mem_cons_self ..) rfl

theorem FirstUndeclared.not_closed {s : Nat} (h : f.FirstUndeclared n s) : ¬ f.Closed := by
  obtain ⟨before, after, ss, ts, hnodes, hsuccessors, -, -, hs⟩ := h
  intro hclosed
  exact hs (hclosed n (by simp [hnodes]) s (by simp [hsuccessors]))

/-- The nodes of the game are the nodes of the file in order. -/
structure Places (f : FileGame) (c : Converted W) : Prop where
  nodup : f.numbers.Nodup
  ids : c.ids = f.numbers.toArray
  size : c.game.size = f.nodes.length
  node : ∀ (v : Nat) (n : FileNode), f.nodes[v]? = some n →
    ∃ m, c.game.nodes[v]? = some m ∧ Converts f.numbers f.top n m

theorem places_of_forall₂ (hnodup : f.numbers.Nodup) {nodes : List (Node W)}
    (h : List.Forall₂ (Converts f.numbers f.top) f.nodes nodes) :
    f.Places (⟨⟨nodes.toArray⟩, f.numbers.toArray⟩ : Converted W) := by
  obtain ⟨hlen, hget⟩ := List.forall₂_iff_get.mp h
  refine ⟨hnodup, rfl, ?_, fun v n hn => ?_⟩
  · simpa [Game.size] using hlen.symm
  · obtain ⟨hv, rfl⟩ := List.getElem?_eq_some_iff.mp hn
    have hv' : v < nodes.length := hlen ▸ hv
    exact ⟨nodes.get ⟨v, hv'⟩, by simp [hv'], hget v hv hv'⟩

theorem toGame_of_repeated [Scalar W] (htop : f.top < wordLimit) {id : Nat}
    (h : firstRepeated? [] f.numbers = some id) :
    f.toGame (W := W) = .error (.duplicateNode id) := by
  rw [numbers] at h
  simp only [toGame, if_neg (Nat.not_le.mpr htop), h]
  rfl

theorem toGame_of_distinct [Scalar W] (htop : f.top < wordLimit) (h : firstRepeated? [] f.numbers = none) :
    f.toGame (W := W) = f.nodes.mapM (convertNode f.numbers.toArray f.top) >>= fun nodes =>
      .ok ⟨⟨nodes.toArray⟩, f.numbers.toArray⟩ := by
  rw [numbers] at h
  simp only [toGame, if_neg (Nat.not_le.mpr htop), h]
  rfl

/-- Repeated numbers are found before successors are looked up. -/
theorem toGame_cases (W : Type) [Scalar W] (hpriorities : ∀ n ∈ f.nodes, n.priority < infinitePriority) :
    (∃ id, f.toGame (W := W) = .error (.duplicateNode id) ∧ f.FirstRepeated id) ∨
    (∃ n s, f.toGame (W := W) = .error (.unknownSuccessor n.id s) ∧ f.numbers.Nodup ∧ f.FirstUndeclared n s) ∨
    ∃ c : Converted W, f.toGame = .ok c ∧ f.Places c := by
  have htop : f.top < wordLimit := (top_lt hpriorities).trans (by decide)
  cases hrepeated : firstRepeated? [] f.numbers with
  | some id =>
    obtain ⟨before, after, hsplit, hnodup, -, hid⟩ := exists_of_firstRepeated?_eq_some hrepeated
    exact .inl ⟨id, toGame_of_repeated htop hrepeated, before, after, hsplit, hnodup, by simpa using hid⟩
  | none =>
    have hnodup : f.numbers.Nodup := (firstRepeated?_eq_none_iff.mp hrepeated).1
    rw [toGame_of_distinct htop hrepeated]
    cases hnodes : f.nodes.mapM (convertNode (W := W) f.numbers.toArray f.top) with
    | error e =>
      obtain ⟨before, n, after, hsplit, hbefore, hn⟩ := exists_of_mapM_eq_error hnodes
      obtain ⟨ss, s, ts, hsuccessors, hss, hs, rfl⟩ := exists_of_convertNode_eq_error hn
      refine .inr (.inl ⟨n, s, rfl, hnodup, before, after, ss, ts, hsplit, hsuccessors, ?_, hss, hs⟩)
      intro m hm t ht
      obtain ⟨m', hm'⟩ := hbefore m hm
      exact (converts_of_convertNode hm').mem_of_mem ht
    | ok nodes =>
      have hconverts : List.Forall₂ (Converts f.numbers f.top) f.nodes nodes :=
        (forall₂_of_mapM_eq_ok hnodes).imp fun n m hm => converts_of_convertNode hm
      exact .inr (.inr ⟨_, rfl, places_of_forall₂ hnodup hconverts⟩)

/-! ## The game of a file -/

def Leads (f : FileGame) (a b : Nat) : Prop := ∃ n ∈ f.nodes, n.id = a ∧ b ∈ n.successors

def priorities (f : FileGame) (I : Set Nat) : Set Nat := {p | ∃ n ∈ f.nodes, n.id ∈ I ∧ n.priority = p}

/-- The greatest priority of a set of nodes is a player's. -/
def Favours (f : FileGame) (I : Set Nat) (x : Player) : Prop :=
  ∀ p, IsGreatest (f.priorities I) p → Player.ofPriority p = x

end FileGame

def Converted.nodesOf {W : Type} (c : Converted W) (I : Set Nat) : Set Nat := {v | ∃ id ∈ I, c.nodeOf? id = some v}

/-- The game is that of the file: its nodes are the rows in order, its graph is that of the file, and a set of
nodes and a cycle have the same winner in both. -/
structure FileGame.Represents {W : Type} [Scalar W] (f : FileGame) (c : Converted W) : Prop where
  ids : c.ids.toList = f.numbers
  size : c.game.size = f.nodes.length
  owner : ∀ (v : Nat) (n : FileNode), f.nodes[v]? = some n → c.game.owner v = n.owner
  successors : ∀ (v : Nat) (n : FileNode), f.nodes[v]? = some n →
    (c.game.succs v).map (c.ids[·]?) = n.successors.map some
  nodeOf?_iff : ∀ id v : Nat, c.nodeOf? id = some v ↔ c.ids[v]? = some id
  valid : c.game.Valid
  parity : ∀ I : Set Nat, I.Nonempty → (∀ id ∈ I, id ∈ f.numbers) →
    ∃ p q, IsLeast (c.game.priority '' c.nodesOf I) p ∧ IsGreatest (f.priorities I) q ∧ p % 2 = q % 2
  cycle_of_file : ∀ ids, IsCycle f.Leads ids →
    ∃ vs, ids.map c.nodeOf? = vs.map some ∧ IsCycle (fun u v => v ∈ c.game.succs u) vs ∧
      ∀ x, c.game.Favours {v | v ∈ vs} x ↔ f.Favours {id | id ∈ ids} x
  cycle_of_game : ∀ vs, IsCycle (fun u v => v ∈ c.game.succs u) vs →
    ∃ ids, ids.map c.nodeOf? = vs.map some ∧ IsCycle f.Leads ids ∧
      ∀ x, c.game.Favours {v | v ∈ vs} x ↔ f.Favours {id | id ∈ ids} x

namespace FileGame.Places

variable {W : Type} {f : FileGame} {c : Converted W} {n : FileNode} {u v a b id : Nat}

theorem closed (h : f.Places c) : f.Closed := by
  intro n hn s hs
  obtain ⟨v, hv⟩ := List.mem_iff_getElem?.mp hn
  obtain ⟨m, -, hconverts⟩ := h.node v n hv
  exact hconverts.mem_of_mem hs

theorem ids_eq_some_iff (h : f.Places c) : c.ids[v]? = some id ↔ ∃ n, f.nodes[v]? = some n ∧ n.id = id := by
  rw [h.ids, List.getElem?_toArray, numbers, List.getElem?_map, Option.map_eq_some_iff]

theorem nodeOf?_eq_some_iff (h : f.Places c) : c.nodeOf? id = some v ↔ c.ids[v]? = some id := by
  rw [Converted.nodeOf?, h.ids, idxOf?_eq_some_iff_of_nodup h.nodup, List.getElem?_toArray]

theorem exists_nodeOf?_eq (h : f.Places c) (hn : n ∈ f.nodes) :
    ∃ v, f.nodes[v]? = some n ∧ c.nodeOf? n.id = some v := by
  obtain ⟨v, hv⟩ := List.mem_iff_getElem?.mp hn
  exact ⟨v, hv, h.nodeOf?_eq_some_iff.mpr (h.ids_eq_some_iff.mpr ⟨n, hv, rfl⟩)⟩

theorem exists_of_nodeOf?_eq (h : f.Places c) (hv : c.nodeOf? id = some v) :
    ∃ n, f.nodes[v]? = some n ∧ n.id = id :=
  h.ids_eq_some_iff.mp (h.nodeOf?_eq_some_iff.mp hv)

theorem owner_eq (h : f.Places c) (hv : f.nodes[v]? = some n) : c.game.owner v = n.owner := by
  obtain ⟨m, hm, hconverts⟩ := h.node v n hv
  rw [Game.owner, hm, ← hconverts.owner]

theorem priority_eq (h : f.Places c) (hv : f.nodes[v]? = some n) : c.game.priority v = f.top - n.priority := by
  obtain ⟨m, hm, hconverts⟩ := h.node v n hv
  rw [Game.priority, hm, ← hconverts.priority]

theorem succs_map (h : f.Places c) (hv : f.nodes[v]? = some n) :
    (c.game.succs v).map (c.ids[·]?) = n.successors.map some := by
  obtain ⟨m, hm, hconverts⟩ := h.node v n hv
  have hedges : c.game.edges v = m.edges := by rw [Game.edges, hm]
  rw [Game.succs, hedges, List.map_map, ← List.forall₂_eq_eq_eq, List.forall₂_map_left_iff,
    List.forall₂_map_right_iff]
  refine (hconverts.edges.imp fun s e he => ?_).flip
  exact h.nodeOf?_eq_some_iff.mp (by rw [Converted.nodeOf?, h.ids, he])

theorem valid [Scalar W] (h : f.Places c) (hplayable : ∀ n ∈ f.nodes, n.Playable)
    (hpriorities : ∀ n ∈ f.nodes, n.priority < infinitePriority) : c.game.Valid := by
  rw [Game.valid_iff]
  intro v hv
  rw [h.size] at hv
  have hn : f.nodes[v]? = some (f.nodes.get ⟨v, hv⟩) := List.getElem?_eq_getElem hv
  obtain ⟨howner, hsuccessors⟩ := hplayable _ (List.mem_of_getElem? hn)
  have hsuccs := h.succs_map hn
  refine ⟨?_, ?_, fun e he => ⟨?_, fun hchance => ?_⟩⟩
  · rw [h.priority_eq hn]
    have hlt := top_lt hpriorities
    omega
  · intro hnil
    rw [Game.succs, hnil] at hsuccs
    exact hsuccessors (List.map_eq_nil_iff.mp hsuccs.symm)
  · have hmem : c.ids[e.target]? ∈ (c.game.succs v).map (c.ids[·]?) :=
      List.mem_map_of_mem (List.mem_map_of_mem he)
    rw [hsuccs] at hmem
    obtain ⟨s, -, hs⟩ := List.mem_map.mp hmem
    obtain ⟨m, hm, -⟩ := h.ids_eq_some_iff.mp hs.symm
    rw [h.size]
    exact (List.getElem?_eq_some_iff.mp hm).1
  · rw [h.owner_eq hn] at hchance
    exact absurd hchance howner

theorem mem_succs_iff (h : f.Places c) (hu : c.nodeOf? a = some u) (hv : c.nodeOf? b = some v) :
    f.Leads a b ↔ v ∈ c.game.succs u := by
  obtain ⟨n, hn, rfl⟩ := h.exists_of_nodeOf?_eq hu
  have hsuccs := h.succs_map hn
  constructor
  · rintro ⟨m, hm, hid, hb⟩
    obtain ⟨u', hu', hnode⟩ := h.exists_nodeOf?_eq hm
    rw [hid, hu] at hnode
    cases hnode
    obtain rfl : m = n := Option.some.inj (hu'.symm.trans hn)
    have hmem : some b ∈ (c.game.succs u).map (c.ids[·]?) := hsuccs ▸ List.mem_map_of_mem hb
    obtain ⟨w, hw, hbw⟩ := List.mem_map.mp hmem
    -- Different nodes have different numbers, so the successor found is the node asked for.
    obtain rfl : w = v := Option.some.inj ((h.nodeOf?_eq_some_iff.mpr hbw).symm.trans hv)
    exact hw
  · intro hmem
    have hb : c.ids[v]? ∈ n.successors.map some := hsuccs ▸ List.mem_map_of_mem hmem
    rw [h.nodeOf?_eq_some_iff.mp hv] at hb
    obtain ⟨s, hs, heq⟩ := List.mem_map.mp hb
    exact ⟨n, List.mem_of_getElem? hn, rfl, Option.some.inj heq ▸ hs⟩

/-- The node of the greatest priority in the file has the least in the game, and the parity is kept. -/
theorem exists_parity_eq (h : f.Places c) {I : Set Nat} (hne : I.Nonempty) (hI : ∀ id ∈ I, id ∈ f.numbers) :
    ∃ p q, IsLeast (c.game.priority '' c.nodesOf I) p ∧ IsGreatest (f.priorities I) q ∧ p % 2 = q % 2 := by
  have hnonempty : (f.priorities I).Nonempty := by
    obtain ⟨id, hid⟩ := hne
    obtain ⟨n, hn, rfl⟩ := List.mem_map.mp (hI id hid)
    exact ⟨n.priority, n, hn, hid, rfl⟩
  have hbounded : ∀ p ∈ f.priorities I, p ≤ f.top := by
    rintro p ⟨n, hn, -, rfl⟩
    exact priority_le_top hn
  -- The least priority of the game is the reflection of the greatest one of the file.
  have hgreatest : IsGreatest (f.priorities I) (sSup (f.priorities I)) :=
    ⟨Nat.sSup_mem hnonempty ⟨f.top, hbounded⟩, fun p hp => le_csSup ⟨f.top, hbounded⟩ hp⟩
  generalize sSup (f.priorities I) = q at hgreatest
  refine ⟨f.top - q, q, ⟨?_, ?_⟩, hgreatest, ?_⟩
  · obtain ⟨n, hn, hid, rfl⟩ := hgreatest.1
    obtain ⟨v, hv, hnode⟩ := h.exists_nodeOf?_eq hn
    exact ⟨v, ⟨n.id, hid, hnode⟩, h.priority_eq hv⟩
  · rintro p ⟨v, ⟨id, hid, hnode⟩, rfl⟩
    obtain ⟨n, hn, rfl⟩ := h.exists_of_nodeOf?_eq hnode
    have hle : n.priority ≤ q := hgreatest.2 ⟨n, List.mem_of_getElem? hn, hid, rfl⟩
    rw [h.priority_eq hn]
    omega
  · have hq := hbounded q hgreatest.1
    have htop := top_mod_two f
    omega

theorem favours_iff (h : f.Places c) {I : Set Nat} (hne : I.Nonempty) (hI : ∀ id ∈ I, id ∈ f.numbers)
    (x : Player) : c.game.Favours (c.nodesOf I) x ↔ f.Favours I x := by
  obtain ⟨p, q, hp, hq, hpq⟩ := h.exists_parity_eq hne hI
  have hparity : Player.ofPriority p = Player.ofPriority q := by rw [Player.ofPriority, Player.ofPriority, hpq]
  constructor
  · intro hx q' hq'
    rw [hq'.unique hq, ← hparity]
    exact hx p hp
  · intro hx p' hp'
    rw [hp'.unique hp, hparity]
    exact hx q hq

/-! ## Cycles -/

theorem nodesOf_eq {ids vs : List Nat} (hnodes : ids.map c.nodeOf? = vs.map some) :
    c.nodesOf {id | id ∈ ids} = {v | v ∈ vs} := by
  ext v
  have hmem : some v ∈ ids.map c.nodeOf? ↔ v ∈ vs := by simp [hnodes]
  exact List.mem_map.symm.trans hmem

theorem isChain_iff (h : f.Places c) {ids vs : List Nat} (hnodes : ids.map c.nodeOf? = vs.map some) :
    ids.IsChain f.Leads ↔ vs.IsChain fun u v => v ∈ c.game.succs u := by
  rw [← List.forall₂_eq_eq_eq, List.forall₂_map_left_iff, List.forall₂_map_right_iff] at hnodes
  induction hnodes with
  | nil => simp
  | cons ha hrest ih =>
    cases hrest with
    | nil => simp
    | cons hb hrest => rw [List.isChain_cons_cons, List.isChain_cons_cons, ih, h.mem_succs_iff ha hb]

theorem isCycle_iff (h : f.Places c) {ids vs : List Nat} (hnodes : ids.map c.nodeOf? = vs.map some) :
    IsCycle f.Leads ids ↔ IsCycle (fun u v => v ∈ c.game.succs u) vs := by
  cases ids with
  | nil =>
    rw [List.map_nil, eq_comm, List.map_eq_nil_iff] at hnodes
    rw [hnodes, IsCycle, IsCycle]
  | cons a ids =>
    cases vs with
    | nil => cases hnodes
    | cons u vs =>
      obtain ⟨ha, hrest⟩ := List.cons.inj hnodes
      exact h.isChain_iff (by simp [ha, hrest])

theorem favours_cycle_iff (h : f.Places c) {ids vs : List Nat} (hnodes : ids.map c.nodeOf? = vs.map some)
    (hcycle : IsCycle f.Leads ids) (x : Player) :
    c.game.Favours {v | v ∈ vs} x ↔ f.Favours {id | id ∈ ids} x := by
  have hne : ids ≠ [] := by
    rintro rfl
    exact hcycle
  rw [← nodesOf_eq hnodes]
  refine h.favours_iff (List.exists_mem_of_ne_nil ids hne) (fun id hid => ?_) x
  obtain ⟨_, -, n, hn, rfl, -⟩ := hcycle.connected.1 id hid
  exact List.mem_map_of_mem hn

theorem exists_cycle_of_file (h : f.Places c) {ids : List Nat} (hcycle : IsCycle f.Leads ids) :
    ∃ vs, ids.map c.nodeOf? = vs.map some ∧ IsCycle (fun u v => v ∈ c.game.succs u) vs ∧
      ∀ x, c.game.Favours {v | v ∈ vs} x ↔ f.Favours {id | id ∈ ids} x := by
  have hdeclared : ∀ id ∈ ids, ∃ v, c.nodeOf? id = some v := by
    intro id hid
    obtain ⟨_, -, n, hn, rfl, -⟩ := hcycle.connected.1 id hid
    obtain ⟨v, -, hv⟩ := h.exists_nodeOf?_eq hn
    exact ⟨v, hv⟩
  choose! node hnode using hdeclared
  have hnodes : ids.map c.nodeOf? = (ids.map node).map some := by
    rw [List.map_map]
    exact List.map_congr_left hnode
  exact ⟨ids.map node, hnodes, (h.isCycle_iff hnodes).mp hcycle, h.favours_cycle_iff hnodes hcycle⟩

theorem exists_cycle_of_game (h : f.Places c) {vs : List Nat}
    (hcycle : IsCycle (fun u v => v ∈ c.game.succs u) vs) :
    ∃ ids, ids.map c.nodeOf? = vs.map some ∧ IsCycle f.Leads ids ∧
      ∀ x, c.game.Favours {v | v ∈ vs} x ↔ f.Favours {id | id ∈ ids} x := by
  have hnumbered : ∀ v ∈ vs, ∃ id, c.nodeOf? id = some v := by
    intro v hv
    obtain ⟨w, -, hw⟩ := hcycle.connected.1 v hv
    have hlt : v < f.nodes.length := h.size ▸ c.game.lt_size_of_mem_succs hw
    have hn : f.nodes[v]? = some (f.nodes.get ⟨v, hlt⟩) := List.getElem?_eq_getElem hlt
    exact ⟨_, h.nodeOf?_eq_some_iff.mpr (h.ids_eq_some_iff.mpr ⟨_, hn, rfl⟩)⟩
  choose! number hnumber using hnumbered
  have hnodes : (vs.map number).map c.nodeOf? = vs.map some := by
    rw [List.map_map]
    exact List.map_congr_left hnumber
  have hfile := (h.isCycle_iff hnodes).mpr hcycle
  exact ⟨vs.map number, hnodes, hfile, h.favours_cycle_iff hnodes hfile⟩

theorem represents [Scalar W] (h : f.Places c) (hplayable : ∀ n ∈ f.nodes, n.Playable)
    (hpriorities : ∀ n ∈ f.nodes, n.priority < infinitePriority) : f.Represents c where
  ids := by rw [h.ids]
  size := h.size
  owner _ _ := h.owner_eq
  successors _ _ := h.succs_map
  nodeOf?_iff _ _ := h.nodeOf?_eq_some_iff
  valid := h.valid hplayable hpriorities
  parity _ := h.exists_parity_eq
  cycle_of_file _ := h.exists_cycle_of_file
  cycle_of_game _ := h.exists_cycle_of_game

end FileGame.Places

/-- Conversion is faithful. It succeeds if and only if all numbers are distinct and all successors declared.
Otherwise it names the first number that is declared again, or, if there is none, the first successor that is
not declared. What it gives is the game of the file. -/
theorem conversion_faithful (W : Type) [Scalar W] {source : String} {f : FileGame}
    (hread : readGame? source = some f) (hpriorities : ∀ n ∈ f.nodes, n.priority < infinitePriority) :
    ((∃ c : Converted W, f.toGame = .ok c) ↔ f.numbers.Nodup ∧ f.Closed) ∧
    (¬ f.numbers.Nodup → ∃ id, f.FirstRepeated id ∧ f.toGame (W := W) = .error (.duplicateNode id)) ∧
    (f.numbers.Nodup → ¬ f.Closed →
      ∃ n s, f.FirstUndeclared n s ∧ f.toGame (W := W) = .error (.unknownSuccessor n.id s)) ∧
    ∀ c : Converted W, f.toGame = .ok c → f.Represents c := by
  have hplayable := playable_of_readGame? hread
  rcases FileGame.toGame_cases W hpriorities with ⟨id, heq, hid⟩ | ⟨n, s, heq, hnodup, hs⟩ | ⟨c, heq, hc⟩
  · have herror : ∀ c : Converted W, f.toGame ≠ .ok c := fun c hc => by cases heq.symm.trans hc
    refine ⟨⟨fun ⟨c, hc⟩ => absurd hc (herror c), fun h => absurd h.1 hid.not_nodup⟩, ?_, ?_, ?_⟩
    · exact fun _ => ⟨id, hid, heq⟩
    · exact fun hnodup => absurd hnodup hid.not_nodup
    · exact fun c hc => absurd hc (herror c)
  · have herror : ∀ c : Converted W, f.toGame ≠ .ok c := fun c hc => by cases heq.symm.trans hc
    refine ⟨⟨fun ⟨c, hc⟩ => absurd hc (herror c), fun h => absurd h.2 hs.not_closed⟩, ?_, ?_, ?_⟩
    · exact fun hnot => absurd hnodup hnot
    · exact fun _ _ => ⟨n, s, hs, heq⟩
    · exact fun c hc => absurd hc (herror c)
  · refine ⟨⟨fun _ => ⟨hc.nodup, hc.closed⟩, fun _ => ⟨c, heq⟩⟩, ?_, ?_, ?_⟩
    · exact fun hnot => absurd hc.nodup hnot
    · exact fun _ hnot => absurd hc.closed hnot
    · intro c' hc'
      cases heq.symm.trans hc'
      exact hc.represents hplayable hpriorities

/-- Numbers with a gap, in no order. -/
def sparse : String := "parity 7;\nstart 7;\n7 3 0 2,7 \"a;\" top;\n2 4 1 7;\n"

/-- A number declared twice and a successor never declared before that. -/
def doubled : String := "parity 1;\n0 0 0 5;\n0 1 1 0;\n"

theorem conversion_faithful_sparse :
    (∃ f, readGame? sparse = some f ∧ ∃ c : Converted Rat, f.toGame = .ok c ∧ f.Represents c) ∧
    ∃ f, readGame? doubled = some f ∧ ∃ id, f.FirstRepeated id ∧
      f.toGame (W := Rat) = .error (.duplicateNode id) := by
  have hsparse : readGame? sparse =
      some ⟨7, some 7, [⟨7, 3, .even, [2, 7], some "a;"⟩, ⟨2, 4, .odd, [7], none⟩]⟩ := by decide +kernel
  have hdoubled : readGame? doubled =
      some ⟨1, none, [⟨0, 0, .even, [5], none⟩, ⟨0, 1, .odd, [0], none⟩]⟩ := by decide +kernel
  constructor
  · obtain ⟨hok, -, -, hrepresents⟩ := conversion_faithful Rat hsparse (by decide)
    obtain ⟨c, hc⟩ := hok.mpr ⟨by decide, by unfold FileGame.Closed; decide⟩
    exact ⟨_, hsparse, c, hc, hrepresents c hc⟩
  · obtain ⟨-, hrepeated, -, -⟩ := conversion_faithful Rat hdoubled (by decide)
    exact ⟨_, hdoubled, hrepeated (by decide)⟩

end PgSolver

end OmegaGames
