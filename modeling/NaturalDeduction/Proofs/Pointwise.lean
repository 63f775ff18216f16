import Mathlib.Data.List.Forall2

/-!
# Lists related item by item

Expressions that are applied, frames that lie around each other, and what is printed of the items of
a list are compared item by item (`List.Forall₂`). Relations between items compose, and so do the
relations between lists. In an induction over expressions this is known for the items of one list
only, so the lemmas ask no more than that.
-/

namespace NaturalDeduction

variable {α β γ : Type} {as : List α} {bs : List β} {cs : List γ}

/-- Lists that are related item by item stay so when every item of the first one allows it. -/
theorem forall₂_imp_of_mem {R S : α → β → Prop} (hs : ∀ a ∈ as, ∀ b, R a b → S a b)
    (h : List.Forall₂ R as bs) : List.Forall₂ S as bs :=
  ((List.forall₂_and_left _ _).2 ⟨hs, h⟩).imp fun _ _ hab ↦ hab.1 _ hab.2

/-- Relations compose item by item when they do at every item of the first list. -/
theorem forall₂_trans_of_mem {R : α → β → Prop} {S : β → γ → Prop} {T : α → γ → Prop}
    (hs : ∀ a ∈ as, ∀ b c, R a b → S b c → T a c) (h : List.Forall₂ R as bs)
    (h' : List.Forall₂ S bs cs) : List.Forall₂ T as cs := by
  induction h generalizing cs with
  | nil => cases h'; exact .nil
  | cons hab _ ih =>
    obtain _ | ⟨hbc, h'⟩ := h'
    exact .cons (hs _ (by simp) _ _ hab hbc) (ih (fun a ha ↦ hs a (by simp [ha])) h')

theorem forall₂_compose {R : α → β → Prop} {S : β → γ → Prop} {T : α → γ → Prop}
    (h : List.Forall₂ R as bs) (h' : List.Forall₂ S bs cs)
    (hRS : ∀ a b c, R a b → S b c → T a c) : List.Forall₂ T as cs :=
  forall₂_trans_of_mem (fun a _ ↦ hRS a) h h'

/-- Where there is something between every two items, there is a list between the lists. -/
theorem exists_forall₂_of_mem {R : α → β → Prop} {S : α → γ → Prop} {T : γ → β → Prop}
    (hs : ∀ a ∈ as, ∀ b, R a b → ∃ c, S a c ∧ T c b) (h : List.Forall₂ R as bs) :
    ∃ cs, List.Forall₂ S as cs ∧ List.Forall₂ T cs bs := by
  induction h with
  | nil => exact ⟨[], .nil, .nil⟩
  | cons hab _ ih =>
    obtain ⟨c, hac, hcb⟩ := hs _ (by simp) _ hab
    obtain ⟨cs, hacs, hcbs⟩ := ih fun a ha ↦ hs a (by simp [ha])
    exact ⟨c :: cs, .cons hac hacs, .cons hcb hcbs⟩

/-- What each item has from its counterpart, all items have from all counterparts. -/
theorem forall_of_forall₂ {P : α → Prop} {Q : β → Prop}
    (h : List.Forall₂ (fun a b ↦ Q b → P a) as bs) (hbs : ∀ b ∈ bs, Q b) : ∀ a ∈ as, P a := by
  induction h with
  | nil => nofun
  | cons h _ ih =>
    obtain ⟨hb, hrest⟩ := List.forall_mem_cons.1 hbs
    exact List.forall_mem_cons.2 ⟨h hb, ih hrest⟩

/-- An item inside of a list has a counterpart inside of the other list. -/
theorem exists_of_forall₂_append_cons {R : α → β → Prop} {inner outer : List α} {a : α}
    (h : List.Forall₂ R (inner ++ a :: outer) bs) :
    ∃ inner' b outer', bs = inner' ++ b :: outer' ∧ R a b ∧ List.Forall₂ R outer outer' := by
  induction inner generalizing bs with
  | nil =>
    cases h with
    | cons hab houter => exact ⟨[], _, _, rfl, hab, houter⟩
  | cons _ rest ih =>
    cases h with
    | cons _ hrest =>
      obtain ⟨inner', b, outer', rfl, hab, houter⟩ := ih hrest
      exact ⟨_ :: inner', b, outer', rfl, hab, houter⟩

end NaturalDeduction
