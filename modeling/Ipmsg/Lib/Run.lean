import Mathlib.Order.Basic

set_option autoImplicit false

/-! # Runs of a labelled step function

A system is a partial step function `step : σ → α → Option σ` (`none`: the label is not enabled).
`exec step s as` runs a list of labels, so a run is a value that can be quantified over, split and
evaluated. Where a label is only harmless in some states, `Along` collects that side condition at
each step taken. An invariant is proved once per label and lifted to every run by `exec_history`,
and `forall_reached_iff_along` shows that a side condition is exact. -/

variable {σ α : Type}

/-- Run the labels `as` from `s`, left to right. -/
def exec (step : σ → α → Option σ) : σ → List α → Option σ
  | s, [] => some s
  | s, a :: as => (step s a).bind fun s' => exec step s' as

/-- `G` holds of every step the run `as` from `s` takes, in the state the step is taken from. -/
def Along (step : σ → α → Option σ) (G : σ → α → Prop) : σ → List α → Prop
  | _, [] => True
  | s, a :: as => G s a ∧ ∀ s', step s a = some s' → Along step G s' as

section
variable {step : σ → α → Option σ} {G : σ → α → Prop}

@[simp] theorem exec_nil (s : σ) : exec step s [] = some s := rfl

theorem exec_cons (s : σ) (a : α) (as : List α) :
    exec step s (a :: as) = (step s a).bind fun s' => exec step s' as := rfl

theorem exec_cons_eq_some {s t : σ} {a : α} {as : List α} :
    exec step s (a :: as) = some t ↔ ∃ u, step s a = some u ∧ exec step u as = some t := by
  simp [exec_cons, Option.bind_eq_some_iff]

theorem exec_append (s : σ) (as bs : List α) :
    exec step s (as ++ bs) = (exec step s as).bind fun t => exec step t bs := by
  induction as generalizing s with
  | nil => rfl
  | cons a as ih =>
      rw [List.cons_append, exec_cons, exec_cons, Option.bind_assoc]
      exact congrArg _ (funext ih)

theorem exec_singleton (s : σ) (a : α) : exec step s [a] = step s a := by
  simp [exec_cons]

theorem along_cons {s : σ} {a : α} {as : List α} :
    Along step G s (a :: as) ↔ G s a ∧ ∀ s', step s a = some s' → Along step G s' as := Iff.rfl

theorem along_cons_of_step {s s' : σ} {a : α} {as : List α} (hstep : step s a = some s') :
    Along step G s (a :: as) ↔ G s a ∧ Along step G s' as := by
  simp [along_cons, hstep]

theorem along_append {as bs : List α} : ∀ {s : σ}, Along step G s (as ++ bs) ↔
    Along step G s as ∧ ∀ t, exec step s as = some t → Along step G t bs := by
  induction as with
  | nil =>
      intro s
      exact ⟨fun h => ⟨trivial, fun t ht => Option.some.inj ht ▸ h⟩, fun h => h.2 s rfl⟩
  | cons a as ih =>
      intro s
      constructor
      · rintro ⟨ha, has⟩
        refine ⟨⟨ha, fun s' hs' => (ih.1 (has s' hs')).1⟩, fun t ht => ?_⟩
        obtain ⟨u, hu, hut⟩ := exec_cons_eq_some.1 ht
        exact (ih.1 (has u hu)).2 t hut
      · rintro ⟨⟨ha, has⟩, hbs⟩
        exact ⟨ha, fun s' hs' => ih.2 ⟨has s' hs', fun t ht =>
          hbs t (exec_cons_eq_some.2 ⟨s', hs', ht⟩)⟩⟩

theorem Along.mono {G' : σ → α → Prop} (himp : ∀ s a, G s a → G' s a) {as : List α} :
    ∀ {s : σ}, Along step G s as → Along step G' s as := by
  induction as with
  | nil => exact fun _ => trivial
  | cons a as ih => exact fun h => ⟨himp _ _ h.1, fun s' hs' => ih (h.2 s' hs')⟩

theorem along_of_forall (h : ∀ s a, G s a) {as : List α} : ∀ s : σ, Along step G s as := by
  induction as with
  | nil => exact fun _ => trivial
  | cons a as ih => exact fun s => ⟨h s a, fun s' _ => ih s'⟩

/-- A side condition on the labels alone. -/
theorem along_of_mem {P : α → Prop} {as : List α} (h : ∀ a ∈ as, P a) :
    ∀ s : σ, Along step (fun _ a => P a) s as := by
  induction as with
  | nil => exact fun _ => trivial
  | cons a as ih =>
      intro s
      obtain ⟨ha, has⟩ := List.forall_mem_cons.1 h
      exact ⟨ha, fun s' _ => ih has s'⟩

/-- A side condition on a part of the state concerns the run of that part alone. -/
theorem along_map {σ' : Type} {step' : σ' → α → Option σ'} {f : σ → σ'} {G' : σ' → α → Prop}
    (hf : ∀ s a, step' (f s) a = (step s a).map f) {as : List α} :
    ∀ s : σ, Along step' G' (f s) as ↔ Along step (fun s a => G' (f s) a) s as := by
  induction as with
  | nil => exact fun _ => Iff.rfl
  | cons a as ih =>
      intro s
      refine and_congr_right fun _ => ?_
      rw [hf]
      constructor
      · exact fun h s' hs' => (ih s').1 (h (f s') (by rw [hs']; rfl))
      · intro h t ht
        obtain ⟨s', hs', rfl⟩ := Option.map_eq_some_iff.1 ht
        exact (ih s').2 (h s' hs')

/-- Two side conditions that agree wherever an invariant holds. -/
theorem along_congr {D G' : σ → α → Prop} (Inv : σ → Prop)
    (hstep : ∀ s a s', Inv s → D s a → step s a = some s' → Inv s')
    (hiff : ∀ s a, Inv s → D s a → (G s a ↔ G' s a)) {as : List α} :
    ∀ {s : σ}, Inv s → Along step D s as → (Along step G s as ↔ Along step G' s as) := by
  induction as with
  | nil => exact fun _ _ => Iff.rfl
  | cons a as ih =>
      intro s hs hd
      refine and_congr (hiff s a hs hd.1) (forall₂_congr fun s' hs' => ?_)
      exact ih (hstep s a s' hs hd.1 hs') (hd.2 s' hs')

/-! ## Invariants

An invariant may speak of the labels taken so far as well as of the state. -/

/-- **History rule.** If every guarded step keeps `Inv`, a run whose steps all meet the guard ends
    in `Inv`. -/
theorem exec_history (Inv : List α → σ → Prop)
    (hstep : ∀ hist s a s', Inv hist s → G s a → step s a = some s' → Inv (hist ++ [a]) s')
    {as : List α} : ∀ (hist : List α) {s t : σ}, Inv hist s → Along step G s as →
      exec step s as = some t → Inv (hist ++ as) t := by
  induction as with
  | nil =>
      intro hist s t hs _ ht
      rw [exec_nil, Option.some.injEq] at ht
      rw [List.append_nil]
      exact ht ▸ hs
  | cons a as ih =>
      intro hist s t hs hg ht
      obtain ⟨u, hu, hut⟩ := exec_cons_eq_some.1 ht
      rw [List.append_cons]
      exact ih (hist ++ [a]) (hstep hist s a u hs hg.1 hu) (hg.2 u hu) hut

/-- A preorder that every step follows relates the two ends of a run. -/
theorem exec_rel {R : σ → σ → Prop} (hrefl : ∀ s, R s s) (htrans : ∀ s t u, R s t → R t u → R s u)
    (hstep : ∀ s a s', step s a = some s' → R s s') {as : List α} :
    ∀ {s t : σ}, exec step s as = some t → R s t := by
  induction as with
  | nil => exact fun h => Option.some.inj h ▸ hrefl _
  | cons a as ih =>
      intro s t h
      obtain ⟨u, hu, hut⟩ := exec_cons_eq_some.1 h
      exact htrans s u t (hstep s a u hu) (ih hut)

/-- A run of a step function that is never stuck. -/
theorem exec_total (f : σ → α → σ) (as : List α) :
    ∀ s : σ, exec (fun s a => some (f s a)) s as = some (as.foldl f s) := by
  induction as with
  | nil => exact fun _ => rfl
  | cons a as ih => exact fun s => ih (f s a)

/-- **Point of no return.** Let steps that meet `G` keep `P`, let a step that does not meet it lead
    from `P` to `Q`, and let every step keep `Q`. Then a run that starts in `P` ends in `P` if all
    its steps meet `G`, and in `Q` if not. -/
theorem exec_along_or {P Q : σ → Prop} (hkeep : ∀ s a s', P s → G s a → step s a = some s' → P s')
    (hbreak : ∀ s a s', P s → ¬ G s a → step s a = some s' → Q s')
    (hstay : ∀ s a s', Q s → step s a = some s' → Q s') {as : List α} :
    ∀ {s t : σ}, P s → exec step s as = some t →
      Along step G s as ∧ P t ∨ ¬ Along step G s as ∧ Q t := by
  have hlost : ∀ {as : List α} {s t : σ}, Q s → exec step s as = some t → Q t := by
    intro as s t hs h
    exact exec_history (fun _ => Q) (fun _ s a s' hq _ => hstay s a s' hq) [] hs
      (along_of_forall (fun _ _ => trivial) s) h
  induction as with
  | nil => exact fun hs h => Or.inl ⟨trivial, Option.some.inj h ▸ hs⟩
  | cons a as ih =>
      intro s t hs h
      obtain ⟨u, hu, hut⟩ := exec_cons_eq_some.1 h
      rw [along_cons_of_step hu]
      by_cases hg : G s a
      · rw [and_iff_right hg]
        exact ih (hkeep s a u hs hg hu) hut
      · exact Or.inr ⟨fun hand => hg hand.1, hlost (hbreak s a u hs hg hu) hut⟩

/-- **Exact guards.** In runs whose steps meet `D`, let steps that also meet `G` keep `Inv`, let
    `Inv` give `P`, and let a step that does not meet `G` break `P` at once. Then `P` holds all
    along such a run exactly when all its steps meet `G`. -/
theorem forall_reached_iff_along {D : σ → α → Prop} (Inv P : List α → σ → Prop)
    (hP : ∀ hist s, Inv hist s → P hist s)
    (hstep : ∀ hist s a s', Inv hist s → D s a → G s a → step s a = some s' → Inv (hist ++ [a]) s')
    (hbreak : ∀ hist s a s', Inv hist s → D s a → ¬ G s a → step s a = some s' →
      ¬ P (hist ++ [a]) s')
    {as : List α} : ∀ (hist : List α) {s t : σ}, Inv hist s → Along step D s as →
      exec step s as = some t →
      ((∀ before u, before <+: as → exec step s before = some u → P (hist ++ before) u) ↔
        Along step G s as) := by
  induction as with
  | nil =>
      intro hist s t hs _ _
      refine iff_of_true (fun before u hpre hu => ?_) trivial
      rw [List.prefix_nil.1 hpre] at hu ⊢
      rw [exec_nil, Option.some.injEq] at hu
      rw [List.append_nil]
      exact hu ▸ hP hist s hs
  | cons a as ih =>
      intro hist s t hs hd ht
      obtain ⟨s', hs', hrest⟩ := exec_cons_eq_some.1 ht
      by_cases hg : G s a
      · -- the first step is harmless: what is claimed of the run is claimed of the rest
        have hiff := ih (hist ++ [a]) (hstep hist s a s' hs hd.1 hg hs') (hd.2 s' hs') hrest
        constructor
        · intro hall
          refine ⟨hg, fun u hu => ?_⟩
          obtain rfl : s' = u := Option.some.inj (hs'.symm.trans hu)
          refine hiff.1 fun before w hpre hw => ?_
          rw [← List.append_cons]
          refine hall (a :: before) w (List.cons_prefix_cons.2 ⟨rfl, hpre⟩) ?_
          exact exec_cons_eq_some.2 ⟨s', hs', hw⟩
        · rintro ⟨-, halong⟩ before u hpre hu
          cases before with
          | nil =>
              rw [exec_nil, Option.some.injEq] at hu
              rw [List.append_nil]
              exact hu ▸ hP hist s hs
          | cons b before =>
              obtain ⟨rfl, hbefore⟩ := List.cons_prefix_cons.1 hpre
              obtain ⟨w, hw, hu⟩ := exec_cons_eq_some.1 hu
              obtain rfl : s' = w := Option.some.inj (hs'.symm.trans hw)
              rw [List.append_cons]
              exact hiff.2 (halong s' hs') before u hbefore hu
      · -- the first step breaks `P` in the state after it
        refine iff_of_false (fun hall => ?_) fun halong => hg halong.1
        refine hbreak hist s a s' hs hd.1 hg hs' (hall [a] s' ?_ ?_)
        · exact List.cons_prefix_cons.2 ⟨rfl, List.nil_prefix⟩
        · rw [exec_singleton, hs']

end
