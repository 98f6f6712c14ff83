import Mathlib

/-!
# Runs of a transition function

States that actions lead to, in any order and number. Invariants and stable facts need to be
checked for one action; stable goals, each of which can be reached from every state, can be
reached together.
-/
namespace PysuiCrypto

variable {σ α β : Type*} (step : σ → α → σ)

/-- Some actions lead from one state to the other. -/
abbrev Reaches : σ → σ → Prop := Relation.ReflTransGen fun s t => ∃ a, step s a = t

variable {step}

theorem Reaches.of_step (s : σ) (a : α) : Reaches step s (step s a) :=
  Relation.ReflTransGen.single ⟨a, rfl⟩

theorem Reaches.invariant {I : σ → Prop} (hstep : ∀ s a, I s → I (step s a)) {s t : σ}
    (h : Reaches step s t) (hs : I s) : I t := by
  induction h with
  | refl => exact hs
  | tail _ hact ih =>
    obtain ⟨a, rfl⟩ := hact
    exact hstep _ a ih

/-- Stable goals that can each be reached can be reached together. -/
theorem exists_reaches_forall {goal : β → σ → Prop}
    (hgoal : ∀ b s a, goal b s → goal b (step s a)) {bs : List β}
    (hreach : ∀ b ∈ bs, ∀ s, ∃ t, Reaches step s t ∧ goal b t) (s : σ) :
    ∃ t, Reaches step s t ∧ ∀ b ∈ bs, goal b t := by
  induction bs generalizing s with
  | nil => exact ⟨s, .refl, by simp⟩
  | cons b bs ih =>
    obtain ⟨t, hst, hb⟩ := hreach b (by simp) s
    obtain ⟨u, htu, hbs⟩ := ih (fun b' hb' => hreach b' (by simp [hb'])) t
    refine ⟨u, hst.trans htu, ?_⟩
    rintro b' (_ | ⟨_, hb'⟩)
    · exact htu.invariant (hgoal b) hb
    · exact hbs b' hb'

end PysuiCrypto
