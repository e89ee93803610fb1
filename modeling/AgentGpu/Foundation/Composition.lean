import AgentGpu.Foundation.Goroutines

namespace AgentGpu.Foundation

variable {σ ι χ τ ξ : Type}

/-- A process of its own beside a machine. `hear` is what a step of the machine means to it,
and `none` that the step cannot be taken now; `act` are its own steps, which may look at the
machine but do not change it. -/
structure Peer (σ ι χ τ ξ : Type) where
  hear : σ → ι → χ → τ → Option τ
  act : σ → τ → ξ → Option τ

namespace Machine

variable (M : Machine σ ι χ) (P : Peer σ ι χ τ ξ)

inductive Linked (G : Config σ ι → τ → ι → χ → Prop) (H : Config σ ι → τ → ξ → Prop)
    (c₀ : Config σ ι) (p₀ : τ) : Config σ ι → τ → Prop
  | start : Linked G H c₀ p₀ c₀ p₀
  | step {c : Config σ ι} {p p' : τ} {t : ℕ} {i : ι} {rest : List ι} {x : χ} {e : Effect σ ι} :
      Linked G H c₀ p₀ c p → c.threads[t]? = some (i :: rest) → G c p i x →
      M.exec c.shared i x = some e → P.hear c.shared i x p = some p' →
      Linked G H c₀ p₀ (c.after t rest e) p'
  | act {c : Config σ ι} {p p' : τ} {a : ξ} :
      Linked G H c₀ p₀ c p → H c p a → P.act c.shared p a = some p' → Linked G H c₀ p₀ c p'

variable {M P} {G : Config σ ι → τ → ι → χ → Prop} {H : Config σ ι → τ → ξ → Prop}
  {c₀ c : Config σ ι} {p₀ p : τ}

theorem Linked.runs {F : Config σ ι → ι → χ → Prop}
    (hF : ∀ c p p' i x, M.Linked P G H c₀ p₀ c p → G c p i x → P.hear c.shared i x p = some p' →
      i ∈ c.soup → F c i x)
    (h : M.Linked P G H c₀ p₀ c p) : M.Runs F c₀ c := by
  induction h with
  | start => exact .start
  | @step c p p' t i rest x e hc ht hg he hp ih =>
    obtain ⟨R, hR, -⟩ := Config.soup_step ht
    exact ih.step ht (hF c p p' i x hc hg hp (hR ▸ Multiset.mem_cons_self i R)) he
  | act _ _ _ ih => exact ih

theorem Linked.reaches (h : M.Linked P G H c₀ p₀ c p) : M.Reaches c₀ c :=
  h.runs fun _ _ _ _ _ _ _ _ _ ↦ trivial

theorem Linked.invariant (I : σ → Multiset ι → τ → Prop) (hstart : I c₀.shared c₀.soup p₀)
    (hstep : ∀ (c : Config σ ι) p i x R e p', M.Linked P G H c₀ p₀ c p → c.soup = i ::ₘ R →
      I c.shared (i ::ₘ R) p → G c p i x → M.exec c.shared i x = some e →
      P.hear c.shared i x p = some p' → I e.shared (e.fresh + R) p')
    (hact : ∀ (c : Config σ ι) p a p', M.Linked P G H c₀ p₀ c p → I c.shared c.soup p →
      H c p a → P.act c.shared p a = some p' → I c.shared c.soup p')
    (h : M.Linked P G H c₀ p₀ c p) : I c.shared c.soup p := by
  induction h with
  | start => exact hstart
  | @step c p p' t i rest x e hc ht hg he hp ih =>
    obtain ⟨R, hR, hafter⟩ := Config.soup_step ht
    rw [hafter e]
    exact hstep c p i x R e p' hc hR (hR ▸ ih) hg he hp
  | act hc hh hp ih => exact hact _ _ _ _ hc ih hh hp

variable (M P) in
def link (G : Config σ ι → τ → ι → χ → Prop) (H : Config σ ι → τ → ξ → Prop)
    [∀ c p i x, Decidable (G c p i x)] [∀ c p a, Decidable (H c p a)] (c : Config σ ι) (p : τ) :
    List ((ℕ × χ) ⊕ ξ) → Option (Config σ ι × τ)
  | [] => some (c, p)
  | .inl (t, x) :: rest =>
    match c.threads[t]? with
    | some (i :: is) =>
      if G c p i x then
        match M.exec c.shared i x, P.hear c.shared i x p with
        | some e, some p' => link G H (c.after t is e) p' rest
        | _, _ => none
      else none
    | _ => none
  | .inr a :: rest =>
    if H c p a then
      match P.act c.shared p a with
      | some p' => link G H c p' rest
      | none => none
    else none

theorem linked_of_link [∀ c p i x, Decidable (G c p i x)] [∀ c p a, Decidable (H c p a)]
    {schedule : List ((ℕ × χ) ⊕ ξ)} {d : Config σ ι × τ} (hc : M.Linked P G H c₀ p₀ c p)
    (h : M.link P G H c p schedule = some d) : M.Linked P G H c₀ p₀ d.1 d.2 := by
  induction schedule generalizing c p with
  | nil =>
    cases h
    exact hc
  | cons move rest ih =>
    cases move with
    | inl move =>
      obtain ⟨t, x⟩ := move
      simp only [link] at h
      split at h
      · next i is ht =>
        split at h
        · next hg =>
          split at h
          · next e p' he hp => exact ih (hc.step ht hg he hp) h
          · cases h
        · cases h
      · cases h
    | inr a =>
      simp only [link] at h
      split at h
      · next hh =>
        split at h
        · next p' hp => exact ih (hc.act hh hp) h
        · cases h
      · cases h

theorem exists_linked [∀ c p i x, Decidable (G c p i x)] [∀ c p a, Decidable (H c p a)]
    {Q : Config σ ι → τ → Prop} [∀ c p, Decidable (Q c p)] (schedule : List ((ℕ × χ) ⊕ ξ))
    (h : (M.link P G H c₀ p₀ schedule).any (fun d ↦ Q d.1 d.2) = true) :
    ∃ c p, M.Linked P G H c₀ p₀ c p ∧ Q c p := by
  cases hd : M.link P G H c₀ p₀ schedule with
  | none => simp [hd] at h
  | some d => exact ⟨d.1, d.2, linked_of_link .start hd, by simpa [hd] using h⟩

end Machine

end AgentGpu.Foundation
