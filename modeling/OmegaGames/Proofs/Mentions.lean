import OmegaGames.Proofs.WellFormedDescriptions

/-!
# What conditions and guards depend on

A condition depends only on the acceptance sets that it mentions, a guard only on its propositions. Both are
trees whose nodes have lists of children, so their inductions have a hypothesis for every child.
-/
namespace OmegaGames

/-! ## Conditions -/

namespace Acceptance

/-- To prove something of all conditions, a combination may use it for every part. -/
@[elab_as_elim]
theorem induction {P : Acceptance → Prop} (always : P .always) (never : P .never) (inf : ∀ n, P (.inf n))
    (fin : ∀ n, P (.fin n)) (and : ∀ cs : List Acceptance, (∀ c ∈ cs, P c) → P (.and cs))
    (or : ∀ cs : List Acceptance, (∀ c ∈ cs, P c) → P (.or cs)) (a : Acceptance) : P a :=
  @Acceptance.rec P (fun cs => ∀ c ∈ cs, P c) always never inf fin and or (by simp)
    (fun _ _ hc hcs => List.forall_mem_cons.mpr ⟨hc, hcs⟩) a

variable {a : Acceptance} {visited visited' : Nat → Bool}

theorem accepts_and (visited : Nat → Bool) (cs : List Acceptance) :
    (Acceptance.and cs).accepts visited = cs.all (accepts visited) := by
  rw [accepts]
  induction cs with
  | nil => rfl
  | cons c cs ih => rw [acceptsAll, ih, List.all_cons]

theorem accepts_or (visited : Nat → Bool) (cs : List Acceptance) :
    (Acceptance.or cs).accepts visited = cs.any (accepts visited) := by
  rw [accepts]
  induction cs with
  | nil => rfl
  | cons c cs ih => rw [acceptsAny, ih, List.any_cons]

theorem accepts_congr (h : ∀ n, a.Mentions n → visited n = visited' n) :
    a.accepts visited = a.accepts visited' := by
  induction a using Acceptance.induction with
  | always => rfl
  | never => rfl
  | inf n => exact h n .inf
  | fin n => rw [accepts, accepts, h n .fin]
  | and cs ih =>
    have hpart : ∀ c ∈ cs, c.accepts visited = c.accepts visited' := by
      intro c hc
      apply ih c hc
      exact fun n hn => h n (.and hc hn)
    rw [accepts_and, accepts_and, Bool.eq_iff_iff, List.all_eq_true, List.all_eq_true]
    exact forall₂_congr fun c hc => by rw [hpart c hc]
  | or cs ih =>
    have hpart : ∀ c ∈ cs, c.accepts visited = c.accepts visited' := by
      intro c hc
      apply ih c hc
      exact fun n hn => h n (.or hc hn)
    rw [accepts_or, accepts_or, Bool.eq_iff_iff, List.any_eq_true, List.any_eq_true]
    exact exists_congr fun c => and_congr_right fun hc => by rw [hpart c hc]

end Acceptance

/-! ## Guards -/

namespace Guard

/-- To prove something of all guards, a combination may use it for every part. -/
@[elab_as_elim]
theorem induction {P : Guard → Prop} (always : P .always) (never : P .never) (ap : ∀ n, P (.ap n))
    (not : ∀ g, P g → P (.not g)) (and : ∀ gs : List Guard, (∀ g ∈ gs, P g) → P (.and gs))
    (or : ∀ gs : List Guard, (∀ g ∈ gs, P g) → P (.or gs)) (g : Guard) : P g :=
  @Guard.rec P (fun gs => ∀ g ∈ gs, P g) always never ap not and or (by simp)
    (fun _ _ hg hgs => List.forall_mem_cons.mpr ⟨hg, hgs⟩) g

variable {g : Guard} {v v' : Valuation}

theorem eval_and (v : Valuation) (gs : List Guard) : (Guard.and gs).eval v = gs.all (eval v) := by
  rw [eval]
  induction gs with
  | nil => rfl
  | cons g gs ih => rw [evalAll, ih, List.all_cons]

theorem eval_or (v : Valuation) (gs : List Guard) : (Guard.or gs).eval v = gs.any (eval v) := by
  rw [eval]
  induction gs with
  | nil => rfl
  | cons g gs ih => rw [evalAny, ih, List.any_cons]

theorem eval_congr (h : ∀ n, g.Mentions n → v.getD n false = v'.getD n false) : g.eval v = g.eval v' := by
  induction g using Guard.induction with
  | always => rfl
  | never => rfl
  | ap n => exact h n .ap
  | not g ih =>
    rw [eval, eval, ih]
    exact fun n hn => h n (.not hn)
  | and gs ih =>
    have hpart : ∀ g ∈ gs, g.eval v = g.eval v' := by
      intro g hg
      apply ih g hg
      exact fun n hn => h n (.and hg hn)
    rw [eval_and, eval_and, Bool.eq_iff_iff, List.all_eq_true, List.all_eq_true]
    exact forall₂_congr fun g hg => by rw [hpart g hg]
  | or gs ih =>
    have hpart : ∀ g ∈ gs, g.eval v = g.eval v' := by
      intro g hg
      apply ih g hg
      exact fun n hn => h n (.or hg hn)
    rw [eval_or, eval_or, Bool.eq_iff_iff, List.any_eq_true, List.any_eq_true]
    exact exists_congr fun g => and_congr_right fun hg => by rw [hpart g hg]

end Guard

end OmegaGames
