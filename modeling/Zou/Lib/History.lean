import Mathlib.Algebra.Order.Ring.Nat
import Mathlib.Data.List.Sort
import Mathlib.Data.List.Perm.Basic

/-!
# Base pages and records above them

What a read point sees of one thing that changes over time: pages at
positions, each the whole state there, and records at positions, each a
change. A reading is a newest page and the records above it, in order;
its answer is a function of the two.

`eval_congr` says when two views give the same answer, `eval_fold`
when one of them has a page at a cut for what the other has below it: the
page has to be where the answer at the cut leaves off (`Resumes`). Nothing
says that pages or records of a view are unique; views where they may be
taken for each other `Agree`.
-/

namespace History

variable {P R A : Type}

structure View (P R : Type) where
  page : Nat → P → Prop
  record : Nat → R → Prop

structure Reading (P R : Type) where
  base : Option (Nat × P)
  records : List (Nat × R)

def Reading.floor (x : Reading P R) : Nat := (x.base.map Prod.fst).getD 0

/-- A newest page, and exactly the records above it, each position once. -/
structure Found (v : View P R) (x : Reading P R) : Prop where
  newest : ∀ b p, x.base = some (b, p) → v.page b p ∧ ∀ b' p', v.page b' p' → b' ≤ b
  bare : x.base = none → ∀ b p, ¬ v.page b p
  ascending : x.records.Pairwise fun a b => a.1 < b.1
  sound : ∀ l r, (l, r) ∈ x.records → v.record l r ∧ x.floor < l
  complete : ∀ l r, v.record l r → x.floor < l → ∃ r', (l, r') ∈ x.records

/-! ## Ascending lists -/

theorem ascending_ext {l l' : List (Nat × R)} (h : l.Pairwise fun a b => a.1 < b.1)
    (h' : l'.Pairwise fun a b => a.1 < b.1) (hmem : ∀ a, a ∈ l ↔ a ∈ l') : l = l' := by
  have hne : ∀ {a b : Nat × R}, a.1 < b.1 → a ≠ b := by
    rintro a b hlt rfl
    exact Nat.lt_irrefl _ hlt
  have hperm : l.Perm l' := (List.perm_ext_iff_of_nodup (h.imp hne) (h'.imp hne)).mpr hmem
  refine hperm.eq_of_pairwise ?_ h h'
  intro a b _ _ hab hba
  exact absurd hab (Nat.lt_asymm hba)

/-- An ascending list, cut at a position. -/
theorem ascending_split (at_ : Nat) : ∀ {l : List (Nat × R)}, (l.Pairwise fun a b => a.1 < b.1) →
    l = l.filter (fun a => a.1 ≤ at_) ++ l.filter (fun a => at_ < a.1) := by
  intro l
  induction l with
  | nil => exact fun _ => rfl
  | cons a l ih =>
    intro h
    obtain ⟨ha, hl⟩ := List.pairwise_cons.mp h
    by_cases hle : a.1 ≤ at_
    · have hnot : ¬ at_ < a.1 := Nat.not_lt.mpr hle
      rw [List.filter_cons_of_pos (by simpa using hle), List.filter_cons_of_neg (by simpa using hle),
        List.cons_append, ← ih hl]
    · have hlt : at_ < a.1 := Nat.lt_of_not_le hle
      have hnone : l.filter (fun a => a.1 ≤ at_) = [] := by
        rw [List.filter_eq_nil_iff]
        intro b hb
        have hab := ha b hb
        simp only [decide_eq_true_eq, Nat.not_le]
        omega
      have hall : l.filter (fun a => at_ < a.1) = l := by
        rw [List.filter_eq_self]
        intro b hb
        have hab := ha b hb
        simp only [decide_eq_true_eq]
        omega
      rw [List.filter_cons_of_neg (by simpa using hlt), List.filter_cons_of_pos (by simpa using hlt),
        hnone, hall]
      rfl

/-! ## Answers -/

section Answers

variable (f : Option P → List (Nat × R) → A)

def Reading.eval (x : Reading P R) : A := f (x.base.map Prod.snd) x.records

/-- Two pages that give the same answers. -/
def Same (p p' : P) : Prop := ∀ rs, f (some p) rs = f (some p') rs

/-- A page stands for a base and some records: what follows them follows
it. -/
def Resumes (base : Option P) (rs : List (Nat × R)) (p : P) : Prop :=
  ∀ rs', f base (rs ++ rs') = f (some p) rs'

/-- One record a position, and pages of one position that are the same. -/
structure Agrees (v : View P R) : Prop where
  record : ∀ l r r', v.record l r → v.record l r' → r = r'
  page : ∀ b p p', v.page b p → v.page b p' → Same f p p'

variable {f} {v v' v₀ : View P R} {x x' x₀ : Reading P R}

/-- The records above a common floor. -/
theorem records_eq (hx : Found v x) (hx' : Found v' x') (hv : Agrees f v)
    (hfloor : x.floor = x'.floor)
    (hrec : ∀ l r, x.floor < l → (v.record l r ↔ v'.record l r)) : x.records = x'.records := by
  refine ascending_ext hx.ascending hx'.ascending fun ⟨l, r⟩ => ⟨fun hm => ?_, fun hm => ?_⟩
  · obtain ⟨hr, hl⟩ := hx.sound l r hm
    obtain ⟨r', hm'⟩ := hx'.complete l r ((hrec l r hl).mp hr) (hfloor ▸ hl)
    have hr' := (hrec l r' hl).mpr (hx'.sound l r' hm').1
    rw [hv.record l r r' hr hr']
    exact hm'
  · obtain ⟨hr', hl⟩ := hx'.sound l r hm
    have hl' : x.floor < l := hfloor.symm ▸ hl
    have hr := (hrec l r hl').mpr hr'
    obtain ⟨r', hm'⟩ := hx.complete l r hr hl'
    rw [hv.record l r r' hr (hx.sound l r' hm').1]
    exact hm'

/-- Views with the same records and, up to their answers, the same pages:
whatever follows. A record at position 0 is above no page. -/
theorem eval_append (hx : Found v x) (hx' : Found v' x') (hv : Agrees f v)
    (hpage : ∀ b p, v.page b p → ∃ p', v'.page b p' ∧ Same f p p')
    (hpage' : ∀ b p', v'.page b p' → ∃ p, v.page b p ∧ Same f p p')
    (hrec : ∀ l r, 0 < l → (v.record l r ↔ v'.record l r)) (rs : List (Nat × R)) :
    f (x.base.map Prod.snd) (x.records ++ rs) = f (x'.base.map Prod.snd) (x'.records ++ rs) := by
  cases hb : x.base with
  | none =>
    have hnone : x'.base = none := by
      cases hb' : x'.base with
      | none => rfl
      | some bp =>
        obtain ⟨b, p⟩ := bp
        obtain ⟨p', hp', -⟩ := hpage' b p (hx'.newest b p hb').1
        exact absurd hp' (hx.bare hb b p')
    have hfloor : x.floor = x'.floor := by
      unfold Reading.floor
      rw [hb, hnone]
    rw [hnone, records_eq hx hx' hv hfloor fun l r hl => hrec l r (Nat.zero_lt_of_lt hl)]
  | some bp =>
    obtain ⟨b, p⟩ := bp
    obtain ⟨hp, hmax⟩ := hx.newest b p hb
    cases hb' : x'.base with
    | none =>
      obtain ⟨p', hp', -⟩ := hpage b p hp
      exact absurd hp' (hx'.bare hb' b p')
    | some bp' =>
      obtain ⟨b', p'⟩ := bp'
      obtain ⟨hp', hmax'⟩ := hx'.newest b' p' hb'
      -- Each view has the other's newest position.
      obtain ⟨q, hq, hsame⟩ := hpage' b' p' hp'
      obtain ⟨q', hq', -⟩ := hpage b p hp
      obtain rfl : b = b' := Nat.le_antisymm (hmax' b q' hq') (hmax b' q hq)
      have hfloor : x.floor = x'.floor := by
        unfold Reading.floor
        rw [hb, hb']
        rfl
      rw [records_eq hx hx' hv hfloor fun l r hl => hrec l r (Nat.zero_lt_of_lt hl)]
      exact (hv.page b p q hp hq _).trans (hsame _)

theorem eval_congr (hx : Found v x) (hx' : Found v' x') (hv : Agrees f v)
    (hpage : ∀ b p, v.page b p → ∃ p', v'.page b p' ∧ Same f p p')
    (hpage' : ∀ b p', v'.page b p' → ∃ p, v.page b p ∧ Same f p p')
    (hrec : ∀ l r, 0 < l → (v.record l r ↔ v'.record l r)) : x.eval f = x'.eval f := by
  have h := eval_append hx hx' hv hpage hpage' hrec []
  rwa [List.append_nil, List.append_nil] at h

/-- A page at a cut. `v₀` is `v` up to the cut and `q` a page where its
answer resumes; `v'` has `q` at the cut, what `v` has above it, and at the
cut nothing else than pages like `q`. -/
theorem eval_fold {at_ : Nat} {q : P} (hx : Found v x) (hx' : Found v' x') (hx₀ : Found v₀ x₀)
    (hv : Agrees f v) (hcut : ∀ b p, v₀.page b p ↔ v.page b p ∧ b ≤ at_)
    (hcutRec : ∀ l r, v₀.record l r ↔ v.record l r ∧ l ≤ at_)
    (hq : Resumes f (x₀.base.map Prod.snd) x₀.records q)
    (habove : ∀ b p, at_ < b → (v'.page b p ↔ v.page b p))
    (haboveRec : ∀ l r, at_ < l → (v'.record l r ↔ v.record l r)) (hat : v'.page at_ q)
    (hlike : ∀ p, v'.page at_ p → Same f p q) : x.eval f = x'.eval f := by
  by_cases hnew : ∃ b p, v.page b p ∧ at_ < b
  · -- A page above the cut: neither answer looks below it.
    obtain ⟨b₁, p₁, hp₁, hlt₁⟩ := hnew
    cases hb : x.base with
    | none => exact absurd hp₁ (hx.bare hb b₁ p₁)
    | some bp =>
      obtain ⟨b, p⟩ := bp
      obtain ⟨hp, hmax⟩ := hx.newest b p hb
      have hlt : at_ < b := Nat.lt_of_lt_of_le hlt₁ (hmax b₁ p₁ hp₁)
      cases hb' : x'.base with
      | none => exact absurd ((habove b p hlt).mpr hp) (hx'.bare hb' b p)
      | some bp' =>
        obtain ⟨b', p'⟩ := bp'
        obtain ⟨hp', hmax'⟩ := hx'.newest b' p' hb'
        have hle : b ≤ b' := hmax' b p ((habove b p hlt).mpr hp)
        have hpv : v.page b' p' := (habove b' p' (Nat.lt_of_lt_of_le hlt hle)).mp hp'
        obtain rfl : b = b' := Nat.le_antisymm hle (hmax b' p' hpv)
        have hf : x.floor = b := by
          unfold Reading.floor
          rw [hb]
          rfl
        have hfloor : x.floor = x'.floor := by
          rw [hf]
          unfold Reading.floor
          rw [hb']
          rfl
        unfold Reading.eval
        rw [hb, hb', records_eq hx hx' hv hfloor
          fun l r hl => (haboveRec l r (by rw [hf] at hl; omega)).symm]
        exact hv.page b p p' hp hpv _
  · have hlow : ∀ b p, v.page b p → b ≤ at_ := by
      intro b p hp
      by_contra hgt
      exact hnew ⟨b, p, hp, Nat.lt_of_not_le hgt⟩
    -- The new view's base is at the cut.
    obtain ⟨p', hb', hp'⟩ : ∃ p', x'.base = some (at_, p') ∧ v'.page at_ p' := by
      cases hb' : x'.base with
      | none => exact absurd hat (hx'.bare hb' at_ q)
      | some bp' =>
        obtain ⟨b', p'⟩ := bp'
        obtain ⟨hp', hmax'⟩ := hx'.newest b' p' hb'
        have hle : at_ ≤ b' := hmax' at_ q hat
        by_cases hlt : at_ < b'
        · exact absurd (hlow b' p' ((habove b' p' hlt).mp hp')) (Nat.not_le.mpr hlt)
        · obtain rfl : at_ = b' := Nat.le_antisymm hle (Nat.le_of_not_lt hlt)
          exact ⟨p', rfl, hp'⟩
    have hf' : x'.floor = at_ := by
      unfold Reading.floor
      rw [hb']
      rfl
    -- The old view's base and the records up to the cut are those at the cut.
    have hfle : x.floor ≤ at_ := by
      unfold Reading.floor
      cases hb : x.base with
      | none => exact Nat.zero_le _
      | some bp => exact hlow bp.1 bp.2 (hx.newest bp.1 bp.2 hb).1
    have hx₁ : Found v₀ ⟨x.base, x.records.filter fun a => a.1 ≤ at_⟩ := by
      refine ⟨fun b p hb => ?_, fun hb b p hp => ?_, hx.ascending.filter _, fun l r hm => ?_,
        fun l r hr hl => ?_⟩
      · obtain ⟨hp, hmax⟩ := hx.newest b p hb
        exact ⟨(hcut b p).mpr ⟨hp, hlow b p hp⟩, fun b' p' hp' => hmax b' p' ((hcut b' p').mp hp').1⟩
      · exact hx.bare hb b p ((hcut b p).mp hp).1
      · obtain ⟨hm, hle⟩ := List.mem_filter.mp hm
        obtain ⟨hr, hl⟩ := hx.sound l r hm
        exact ⟨(hcutRec l r).mpr ⟨hr, by simpa using hle⟩, hl⟩
      · obtain ⟨hr, hle⟩ := (hcutRec l r).mp hr
        obtain ⟨r', hm⟩ := hx.complete l r hr hl
        exact ⟨r', List.mem_filter.mpr ⟨hm, by simpa using hle⟩⟩
    have hv₀ : Agrees f v₀ := by
      refine ⟨fun l r r' h h' => ?_, fun b p p' h h' => ?_⟩
      · exact hv.record l r r' ((hcutRec l r).mp h).1 ((hcutRec l r').mp h').1
      · exact hv.page b p p' ((hcut b p).mp h).1 ((hcut b p').mp h').1
    have hrest : x.records.filter (fun a => at_ < a.1) = x'.records := by
      refine ascending_ext (hx.ascending.filter _) hx'.ascending fun ⟨l, r⟩ => ⟨fun hm => ?_, fun hm => ?_⟩
      · obtain ⟨hm, hl⟩ := List.mem_filter.mp hm
        have hl : at_ < l := by simpa using hl
        obtain ⟨hr, -⟩ := hx.sound l r hm
        obtain ⟨r', hm'⟩ := hx'.complete l r ((haboveRec l r hl).mpr hr) (hf'.symm ▸ hl)
        rw [hv.record l r r' hr ((haboveRec l r' hl).mp (hx'.sound l r' hm').1)]
        exact hm'
      · obtain ⟨hr', hl⟩ := hx'.sound l r hm
        rw [hf'] at hl
        have hr := (haboveRec l r hl).mp hr'
        obtain ⟨r', hm'⟩ := hx.complete l r hr (Nat.lt_of_le_of_lt hfle hl)
        rw [hv.record l r r' hr (hx.sound l r' hm').1]
        exact List.mem_filter.mpr ⟨hm', by simpa using hl⟩
    have hsame : ∀ rs, f (x.base.map Prod.snd) (x.records.filter (fun a => a.1 ≤ at_) ++ rs)
        = f (x₀.base.map Prod.snd) (x₀.records ++ rs) := fun rs =>
      eval_append hx₁ hx₀ hv₀ (fun b p hp => ⟨p, hp, fun _ => rfl⟩)
        (fun b p hp => ⟨p, hp, fun _ => rfl⟩) (fun _ _ _ => .rfl) rs
    calc x.eval f
        = f (x.base.map Prod.snd) (x.records.filter (fun a => a.1 ≤ at_)
            ++ x.records.filter fun a => at_ < a.1) := by
          unfold Reading.eval
          rw [← ascending_split at_ hx.ascending]
      _ = f (x₀.base.map Prod.snd) (x₀.records ++ x'.records) := by rw [hrest, hsame]
      _ = f (some q) x'.records := hq _
      _ = x'.eval f := by
          unfold Reading.eval
          rw [hb']
          exact (hlike p' hp' _).symm

end Answers

end History
