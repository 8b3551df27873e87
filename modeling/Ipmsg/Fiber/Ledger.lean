import Ipmsg.Fiber.Machine
import Mathlib.Algebra.Group.Nat.Defs
import Mathlib.Data.Finset.Card
import Mathlib.Data.Finset.Range
import Mathlib.Logic.Function.Basic

set_option autoImplicit false

/-! # A ledger of fibers

Which objects there are, whose constructor has an id and is not counted yet, and the two counters,
as threads change them: the ids follow the constructors, and the count is that of the objects that
are alive. -/

namespace Ipmsg

variable {θ : Type}

/-- What is written down of a program: its objects, the constructors under way and the counters. -/
@[ext] structure Ledger (θ : Type) where
  tags : FiberPtr → Option (ℕ × Bool × Bool)
  making : θ → Option (FiberPtr × ℕ)
  next : FiberPtr
  id : ℕ
  count : ℕ

namespace Ledger

variable [DecidableEq θ]

/-- What a step of thread `t` writes down. A step that starts a constructor does so for the fiber it
gives. -/
inductive Change (t : θ) (l : Ledger θ) : Option FiberPtr → Ledger θ → Prop
  | keep : Change t l none l
  | main : Change t l none { l with
      tags := Function.update l.tags l.next (some (0, false, false))
      next := l.next + 1
      count := (l.count + 1) % 2 ^ 64 }
  | start (idle : l.making t = none) : Change t l (some l.next) { l with
      making := Function.update l.making t (some (l.next, (l.id + 1) % 2 ^ 64))
      next := l.next + 1
      id := (l.id + 1) % 2 ^ 64 }
  | finish {f : FiberPtr} {id : ℕ} (made : l.making t = some (f, id)) : Change t l none { l with
      tags := Function.update l.tags f (some (id, true, false))
      making := Function.update l.making t none
      count := (l.count + 1) % 2 ^ 64 }
  | destroy {f : FiberPtr} {id : ℕ} {stack : Bool} (alive : l.tags f = some (id, stack, false)) :
      Change t l none { l with
        tags := Function.update l.tags f (some (id, stack, true))
        count := (2 ^ 64 - 1 + l.count) % 2 ^ 64 }

/-- The objects that are alive. -/
def alive (l : Ledger θ) : Finset FiberPtr :=
  (Finset.range l.next).filter fun f => (l.tags f).any fun x => !x.2.2

/-- The constructors of sub-fibers were called for `made`, in this order. -/
structure Inv (made : List FiberPtr) (l : Ledger θ) : Prop where
  fresh : ∀ f, l.next ≤ f → l.tags f = none
  pending : ∀ t f id, l.making t = some (f, id) → f < l.next ∧ l.tags f = none
  alone : ∀ t u f i j, l.making t = some (f, i) → l.making u = some (f, j) → t = u
  count : l.count = l.alive.card % 2 ^ 64
  id : l.id = made.length % 2 ^ 64
  made_lt : ∀ f ∈ made, f < l.next
  nodup : made.Nodup
  given : ∀ t f id, l.making t = some (f, id) → ∃ n, made[n]? = some f ∧ id = (n + 1) % 2 ^ 64
  ids : ∀ f id freed, l.tags f = some (id, true, freed) →
    ∃ n, made[n]? = some f ∧ id = (n + 1) % 2 ^ 64
  mains : ∀ f id freed, l.tags f = some (id, false, freed) → id = 0

section
variable {made : List FiberPtr} {l l' : Ledger θ} {t : θ} {f : FiberPtr}

omit [DecidableEq θ] in
theorem mem_alive (hfresh : ∀ f, l.next ≤ f → l.tags f = none) :
    f ∈ l.alive ↔ ((l.tags f).any fun x => !x.2.2) = true := by
  rw [alive, Finset.mem_filter, Finset.mem_range, and_iff_right_iff_imp]
  refine fun halive => Nat.lt_of_not_le fun hle => ?_
  rw [hfresh f hle] at halive
  exact absurd halive (by simp)

omit [DecidableEq θ] in
theorem Inv.main (h : Inv made l) : Inv made { l with
    tags := Function.update l.tags l.next (some (0, false, false))
    next := l.next + 1
    count := (l.count + 1) % 2 ^ 64 } := by
  have hne : ∀ f, f < l.next → f ≠ l.next := fun _ => Nat.ne_of_lt
  have hfresh : ∀ f, l.next + 1 ≤ f →
      Function.update l.tags l.next (some (0, false, false)) f = none := fun f hf =>
    (Function.update_of_ne (Nat.ne_of_gt hf) ..).trans (h.fresh f (Nat.le_of_succ_le hf))
  have hlive : ∀ l' : Ledger θ, l'.tags = Function.update l.tags l.next (some (0, false, false)) →
      l'.next = l.next + 1 → l'.alive = insert l.next l.alive := by
    intro l' htags hnext
    ext f
    rw [mem_alive (by rw [htags, hnext]; exact hfresh), htags, Finset.mem_insert, mem_alive h.fresh]
    by_cases hf : f = l.next
    · simp [hf]
    · simp [hf]
  have hnot : l.next ∉ l.alive := by simp [alive]
  refine ⟨hfresh, fun t f id ht => ?_, h.alone, ?_, h.id, fun f hf => ?_, h.nodup, h.given,
    fun f id freed hf => ?_, fun f id freed hf => ?_⟩
  · obtain ⟨hlt, hnone⟩ := h.pending t f id ht
    exact ⟨Nat.lt_succ_of_lt hlt, (Function.update_of_ne (hne f hlt) ..).trans hnone⟩
  · have hcard : (l.count + 1) % 2 ^ 64 = (l.alive.card + 1) % 2 ^ 64 := by
      rw [h.count]
      omega
    rw [← Finset.card_insert_of_notMem hnot] at hcard
    refine hcard.trans (congrArg (fun x : Finset FiberPtr => x.card % 2 ^ 64) ?_)
    exact Eq.symm (hlive _ rfl rfl)
  · exact Nat.lt_succ_of_lt (h.made_lt f hf)
  · by_cases hf' : f = l.next
    · simp [hf'] at hf
    · exact h.ids f id freed ((Function.update_of_ne hf' ..).symm.trans hf)
  · by_cases hf' : f = l.next
    · simp only [hf', Function.update_self, Option.some.injEq, Prod.mk.injEq] at hf
      exact hf.1.symm
    · exact h.mains f id freed ((Function.update_of_ne hf' ..).symm.trans hf)

theorem Inv.start (h : Inv made l) : Inv (made ++ [l.next]) { l with
    making := Function.update l.making t (some (l.next, (l.id + 1) % 2 ^ 64))
    next := l.next + 1
    id := (l.id + 1) % 2 ^ 64 } := by
  have hgiven : ∀ {f id : ℕ}, (∃ n, made[n]? = some f ∧ id = (n + 1) % 2 ^ 64) →
      ∃ n, (made ++ [l.next])[n]? = some f ∧ id = (n + 1) % 2 ^ 64 := by
    rintro f id ⟨n, hn, hid⟩
    exact ⟨n, by rw [List.getElem?_append_left (List.getElem?_eq_some_iff.1 hn).1, hn], hid⟩
  have hnew : ∀ {u : θ} {f id : ℕ},
      Function.update l.making t (some (l.next, (l.id + 1) % 2 ^ 64)) u = some (f, id) →
      (u = t ∧ f = l.next ∧ id = (l.id + 1) % 2 ^ 64) ∨ l.making u = some (f, id) := by
    intro u f id hu
    by_cases hut : u = t
    · simp only [hut, Function.update_self, Option.some.injEq, Prod.mk.injEq] at hu
      exact Or.inl ⟨hut, hu.1.symm, hu.2.symm⟩
    · exact Or.inr ((Function.update_of_ne hut ..).symm.trans hu)
  have hold : ∀ {u : θ} {f id : ℕ}, l.making u = some (f, id) → f ≠ l.next := fun hu =>
    Nat.ne_of_lt (h.pending _ _ _ hu).1
  have hfresh : ∀ f, l.next + 1 ≤ f → l.tags f = none := fun f hf =>
    h.fresh f (Nat.le_of_succ_le hf)
  refine ⟨hfresh, fun u f id hu => ?_, fun u v f i j hu hv => ?_, ?_, ?_, fun f hf => ?_, ?_,
    fun u f id hu => ?_, fun f id freed hf => hgiven (h.ids f id freed hf), h.mains⟩
  · rcases hnew hu with ⟨-, rfl, -⟩ | hu
    · exact ⟨Nat.lt_succ_self _, h.fresh _ (Nat.le_refl _)⟩
    · obtain ⟨hlt, hnone⟩ := h.pending u f id hu
      exact ⟨Nat.lt_succ_of_lt hlt, hnone⟩
  · rcases hnew hu with ⟨hut, hf, -⟩ | hu' <;> rcases hnew hv with ⟨hvt, hf', -⟩ | hv'
    · exact hut.trans hvt.symm
    · exact absurd hf (hold hv')
    · exact absurd hf' (hold hu')
    · exact h.alone u v f i j hu' hv'
  · have hlive : ∀ l' : Ledger θ, l'.tags = l.tags → l'.next = l.next + 1 → l'.alive = l.alive := by
      intro l' htags hnext
      ext f
      rw [mem_alive (by rw [htags, hnext]; exact hfresh), htags, mem_alive h.fresh]
    refine h.count.trans (congrArg (fun x : Finset FiberPtr => x.card % 2 ^ 64) ?_)
    exact Eq.symm (hlive _ rfl rfl)
  · rw [List.length_append, List.length_singleton]
    show (l.id + 1) % 2 ^ 64 = (made.length + 1) % 2 ^ 64
    rw [h.id]
    omega
  · rcases List.mem_append.1 hf with hf | hf
    · exact Nat.lt_succ_of_lt (h.made_lt f hf)
    · rw [List.mem_singleton.1 hf]
      exact Nat.lt_succ_self _
  · refine List.nodup_append.2 ⟨h.nodup, List.nodup_singleton _, fun f hf g hg => ?_⟩
    rw [List.mem_singleton.1 hg]
    exact Nat.ne_of_lt (h.made_lt f hf)
  · rcases hnew hu with ⟨-, rfl, rfl⟩ | hu
    · refine ⟨made.length, by simp, ?_⟩
      rw [h.id]
      omega
    · exact hgiven (h.given u f id hu)

theorem Inv.finish {id : ℕ} (h : Inv made l) (hmade : l.making t = some (f, id)) :
    Inv made { l with
      tags := Function.update l.tags f (some (id, true, false))
      making := Function.update l.making t none
      count := (l.count + 1) % 2 ^ 64 } := by
  obtain ⟨hlt, hnone⟩ := h.pending t f id hmade
  have hold : ∀ {u : θ} {g i : ℕ}, Function.update l.making t none u = some (g, i) →
      u ≠ t ∧ l.making u = some (g, i) := by
    intro u g i hu
    by_cases hut : u = t
    · simp [hut] at hu
    · exact ⟨hut, (Function.update_of_ne hut ..).symm.trans hu⟩
  have hfresh : ∀ g, l.next ≤ g → Function.update l.tags f (some (id, true, false)) g = none :=
    fun g hg => (Function.update_of_ne (Nat.ne_of_gt (Nat.lt_of_lt_of_le hlt hg)) ..).trans
      (h.fresh g hg)
  have hlive : ∀ l' : Ledger θ, l'.tags = Function.update l.tags f (some (id, true, false)) →
      l'.next = l.next → l'.alive = insert f l.alive := by
    intro l' htags hnext
    ext g
    rw [mem_alive (by rw [htags, hnext]; exact hfresh), htags, Finset.mem_insert, mem_alive h.fresh]
    by_cases hg : g = f
    · simp [hg]
    · simp [hg]
  have hnot : f ∉ l.alive := by
    rw [mem_alive h.fresh, hnone]
    simp
  refine ⟨hfresh, fun u g i hu => ?_, fun u v g i j hu hv => ?_, ?_, h.id, h.made_lt, h.nodup,
    fun u g i hu => h.given u g i (hold hu).2, fun g i freed hg => ?_, fun g i freed hg => ?_⟩
  · obtain ⟨hut, hu⟩ := hold hu
    obtain ⟨hglt, hgnone⟩ := h.pending u g i hu
    refine ⟨hglt, (Function.update_of_ne (fun hgf => ?_) ..).trans hgnone⟩
    exact hut (h.alone u t f i id (hgf ▸ hu) hmade)
  · exact h.alone u v g i j (hold hu).2 (hold hv).2
  · have hcard : (l.count + 1) % 2 ^ 64 = (l.alive.card + 1) % 2 ^ 64 := by
      rw [h.count]
      omega
    rw [← Finset.card_insert_of_notMem hnot] at hcard
    refine hcard.trans (congrArg (fun x : Finset FiberPtr => x.card % 2 ^ 64) ?_)
    exact Eq.symm (hlive _ rfl rfl)
  · by_cases hgf : g = f
    · simp only [hgf, Function.update_self, Option.some.injEq, Prod.mk.injEq] at hg
      obtain rfl := hg.1
      exact hgf ▸ h.given t f id hmade
    · exact h.ids g i freed ((Function.update_of_ne hgf ..).symm.trans hg)
  · by_cases hgf : g = f
    · simp [hgf] at hg
    · exact h.mains g i freed ((Function.update_of_ne hgf ..).symm.trans hg)

omit [DecidableEq θ] in
theorem Inv.destroy {id : ℕ} {stack : Bool} (h : Inv made l)
    (halive : l.tags f = some (id, stack, false)) : Inv made { l with
      tags := Function.update l.tags f (some (id, stack, true))
      count := (2 ^ 64 - 1 + l.count) % 2 ^ 64 } := by
  have hlt : f < l.next := by
    refine Nat.lt_of_not_le fun hle => ?_
    rw [h.fresh f hle] at halive
    exact absurd halive.symm (Option.some_ne_none _)
  have hfresh : ∀ g, l.next ≤ g → Function.update l.tags f (some (id, stack, true)) g = none :=
    fun g hg => (Function.update_of_ne (Nat.ne_of_gt (Nat.lt_of_lt_of_le hlt hg)) ..).trans
      (h.fresh g hg)
  have hlive : ∀ l' : Ledger θ, l'.tags = Function.update l.tags f (some (id, stack, true)) →
      l'.next = l.next → l'.alive = l.alive.erase f := by
    intro l' htags hnext
    ext g
    rw [mem_alive (by rw [htags, hnext]; exact hfresh), htags, Finset.mem_erase, mem_alive h.fresh]
    by_cases hg : g = f
    · simp [hg]
    · simp [hg]
  have hmem : f ∈ l.alive := by
    rw [mem_alive h.fresh, halive]
    rfl
  have hpos : 0 < l.alive.card := Finset.card_pos.2 ⟨f, hmem⟩
  have hold : ∀ {g i : ℕ} {b freed : Bool},
      Function.update l.tags f (some (id, stack, true)) g = some (i, b, freed) →
      ∃ freed', l.tags g = some (i, b, freed') := by
    intro g i b freed hg
    by_cases hgf : g = f
    · simp only [hgf, Function.update_self, Option.some.injEq, Prod.mk.injEq] at hg
      exact ⟨false, by rw [hgf, halive, hg.1, hg.2.1]⟩
    · exact ⟨freed, (Function.update_of_ne hgf ..).symm.trans hg⟩
  refine ⟨hfresh, fun u g i hu => ?_, h.alone, ?_, h.id, h.made_lt, h.nodup, h.given,
    fun g i freed hg => ?_, fun g i freed hg => ?_⟩
  · obtain ⟨hglt, hgnone⟩ := h.pending u g i hu
    refine ⟨hglt, (Function.update_of_ne (fun hgf => ?_) ..).trans hgnone⟩
    rw [hgf, halive] at hgnone
    exact absurd hgnone (Option.some_ne_none _)
  · have hcard : (2 ^ 64 - 1 + l.count) % 2 ^ 64 = (l.alive.card - 1) % 2 ^ 64 := by
      rw [h.count]
      omega
    rw [← Finset.card_erase_of_mem hmem] at hcard
    refine hcard.trans (congrArg (fun x : Finset FiberPtr => x.card % 2 ^ 64) ?_)
    exact Eq.symm (hlive _ rfl rfl)
  · obtain ⟨freed', hg⟩ := hold hg
    exact h.ids g i freed' hg
  · obtain ⟨freed', hg⟩ := hold hg
    exact h.mains g i freed' hg

theorem Inv.change {c : Option FiberPtr} (h : Inv made l) (hchange : Change t l c l') :
    Inv (made ++ c.toList) l' := by
  cases hchange with
  | keep => simpa using h
  | main => simpa using h.main
  | start => exact h.start
  | finish hmade => simpa using h.finish hmade
  | destroy halive => simpa using h.destroy halive

end

end Ledger

end Ipmsg
