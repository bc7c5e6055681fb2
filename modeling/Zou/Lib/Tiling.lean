import Mathlib.Data.List.SplitBy
import Mathlib.Data.List.Nodup
import Zou.Lib.Bytes

/-!
# Groups of items one behind the other

A region of a buffer holds the bytes of some items, in groups. `placed`
pairs every group with the range of its bytes, an offset and a length;
slicing the buffer by the range of a group gives the bytes of the group.
`Consecutive` is the shape of the ranges: each starts where the one before
ends. The items of one key that stand next to each other are the groups of
`splitBy`; `splitBy_snoc` says how one more item changes them, and
`flatMap_filter_perm` that to go through them key by key is to go through
all of them.
-/

namespace Tiling

variable {α β κ : Type}

/-! ## Ranges -/

/-- Each range starts where the one before ends, from `at_` to `end_`. -/
def Consecutive (at_ end_ : Nat) : List (Nat × Nat) → Prop
  | [] => at_ = end_
  | r :: rs => r.1 = at_ ∧ Consecutive (at_ + r.2) end_ rs

variable {at_ : Nat} {rs : List (Nat × Nat)}

theorem Consecutive.append {mid end_ : Nat} {rs' : List (Nat × Nat)} (h : Consecutive at_ mid rs)
    (h' : Consecutive mid end_ rs') : Consecutive at_ end_ (rs ++ rs') := by
  induction rs generalizing at_ with
  | nil => exact h ▸ h'
  | cons r rs ih => exact ⟨h.1, ih h.2⟩

theorem Consecutive.le {end_ : Nat} (h : Consecutive at_ end_ rs) : at_ ≤ end_ := by
  induction rs generalizing at_ with
  | nil => exact Nat.le_of_eq h
  | cons r rs ih => exact Nat.le_trans (Nat.le_add_right ..) (ih h.2)

theorem Consecutive.mem_bounds {end_ : Nat} (h : Consecutive at_ end_ rs) {r : Nat × Nat}
    (hr : r ∈ rs) : at_ ≤ r.1 ∧ r.1 + r.2 ≤ end_ := by
  induction rs generalizing at_ with
  | nil => cases hr
  | cons r' rs ih =>
    obtain ⟨hat, hrest⟩ := h
    rcases List.mem_cons.mp hr with rfl | hmem
    · exact ⟨Nat.le_of_eq hat.symm, hat ▸ hrest.le⟩
    · have hbounds := ih hrest hmem
      exact ⟨by omega, hbounds.2⟩

variable (bytes : α → List UInt8)

/-- The groups with the offset and the length of their bytes. -/
def placed : Nat → List (List α) → List (List α × Nat × Nat)
  | _, [] => []
  | at_, g :: gs =>
    (g, at_, (g.flatMap bytes).length) :: placed (at_ + (g.flatMap bytes).length) gs

variable {bytes}

theorem placed_append (at_ : Nat) (gs hs : List (List α)) : placed bytes at_ (gs ++ hs)
      = placed bytes at_ gs ++ placed bytes (at_ + (gs.flatten.flatMap bytes).length) hs := by
  induction gs generalizing at_ with
  | nil => rfl
  | cons g gs ih =>
    rw [List.cons_append, placed, ih, placed, List.cons_append, List.flatten_cons,
      List.flatMap_append, List.length_append, Nat.add_assoc]

variable (bytes) in
theorem placed_groups (at_ : Nat) (gs : List (List α)) :
    (placed bytes at_ gs).map Prod.fst = gs := by
  induction gs generalizing at_ with
  | nil => rfl
  | cons g gs ih => rw [placed, List.map_cons, ih]

variable (bytes) in
theorem placed_length (at_ : Nat) (gs : List (List α)) :
    (placed bytes at_ gs).length = gs.length := by
  rw [← List.length_map Prod.fst, placed_groups]

variable (bytes) in
theorem placed_consecutive (at_ : Nat) (gs : List (List α)) :
    Consecutive at_ (at_ + (gs.flatten.flatMap bytes).length)
      ((placed bytes at_ gs).map Prod.snd) := by
  induction gs generalizing at_ with
  | nil => rfl
  | cons g gs ih =>
    refine ⟨rfl, ?_⟩
    rw [List.flatten_cons, List.flatMap_append, List.length_append, ← Nat.add_assoc]
    exact ih _

variable {gs : List (List α)} {x : List α × Nat × Nat}

theorem mem_placed_bounds (h : x ∈ placed bytes at_ gs) :
    at_ ≤ x.2.1 ∧ x.2.1 + x.2.2 ≤ at_ + (gs.flatten.flatMap bytes).length :=
  (placed_consecutive bytes at_ gs).mem_bounds (List.mem_map_of_mem h)

/-- The range of a group slices its bytes out of a buffer that holds the
groups. -/
theorem slice_placed_of_slice {b : List UInt8}
    (hb : Bytes.slice b at_ (gs.flatten.flatMap bytes).length = gs.flatten.flatMap bytes) (h : x ∈ placed bytes at_ gs) :
    Bytes.slice b x.2.1 x.2.2 = x.1.flatMap bytes := by
  induction gs generalizing at_ with
  | nil => cases h
  | cons g gs ih =>
    rw [List.flatten_cons, List.flatMap_append, List.length_append] at hb
    rcases List.mem_cons.mp h with rfl | hmem
    · have hfront : Bytes.slice (Bytes.slice b at_
          ((g.flatMap bytes).length + (gs.flatten.flatMap bytes).length)) 0
          (g.flatMap bytes).length = g.flatMap bytes := by
        rw [hb, Bytes.slice_head rfl]
      rwa [Bytes.slice_slice (by omega), Nat.add_zero] at hfront
    · refine ih ?_ hmem
      have hback : Bytes.slice (Bytes.slice b at_
          ((g.flatMap bytes).length + (gs.flatten.flatMap bytes).length)) (g.flatMap bytes).length
          (gs.flatten.flatMap bytes).length = gs.flatten.flatMap bytes := by
        rw [hb, Bytes.slice_skip le_rfl, Nat.sub_self, Bytes.slice_all le_rfl]
      rwa [Bytes.slice_slice le_rfl] at hback

theorem slice_placed {pre : List UInt8} (h : x ∈ placed bytes pre.length gs) (post : List UInt8) :
    Bytes.slice (pre ++ (gs.flatten.flatMap bytes ++ post)) x.2.1 x.2.2 = x.1.flatMap bytes := by
  refine slice_placed_of_slice ?_ h
  rw [Bytes.slice_skip le_rfl, Nat.sub_self, Bytes.slice_head rfl]

theorem placed_len (h : x ∈ placed bytes at_ gs) : x.2.2 = (x.1.flatMap bytes).length := by
  induction gs generalizing at_ with
  | nil => cases h
  | cons g gs ih =>
    rcases List.mem_cons.mp h with rfl | hmem
    · rfl
    · exact ih hmem

theorem placed_pos (hbytes : ∀ a, bytes a ≠ [])
    (hgs : [] ∉ gs) (h : x ∈ placed bytes at_ gs) : 0 < x.2.2 := by
  induction gs generalizing at_ with
  | nil => cases h
  | cons g gs ih =>
    rw [List.mem_cons, not_or] at hgs
    rcases List.mem_cons.mp h with rfl | hmem
    · cases g with
      | nil => exact absurd rfl hgs.1
      | cons a g =>
        rw [List.flatMap_cons]
        exact List.length_pos_of_ne_nil (List.append_ne_nil_of_left_ne_nil (hbytes a) _)
    · exact ih hgs.2 hmem

/-! ## Groups of one key -/

variable {l : List α}

/-- One more item joins the last group when its last item goes on with
it. -/
theorem splitBy_snoc_join {r : α → α → Bool} {g : List α} {b : α} (h : l.splitBy r = gs ++ [g])
    (hr : ∀ a ∈ g.getLast?, r a b = true) : (l ++ [b]).splitBy r = gs ++ [g ++ [b]] := by
  have hflat : l ++ [b] = (gs ++ [g ++ [b]]).flatten := by
    rw [← List.flatten_splitBy r l, h]
    simp only [List.flatten_append, List.flatten_cons, List.flatten_nil, List.append_nil,
      List.append_assoc]
  have hnil := List.nil_notMem_splitBy r l
  rw [h, List.mem_append, not_or] at hnil
  have hg : g ≠ [] := fun hg => hnil.2 (hg ▸ List.mem_singleton_self _)
  have hends := List.isChain_getLast_head_splitBy r l
  rw [h, List.isChain_append] at hends
  rw [hflat]
  refine List.splitBy_flatten ?_ ?_ ?_
  · rw [List.mem_append, not_or]
    exact ⟨hnil.1, fun hmem => by simp at hmem⟩
  · intro m hm
    rcases List.mem_append.mp hm with hm | hm
    · exact List.isChain_of_mem_splitBy (h ▸ List.mem_append_left _ hm)
    · rw [List.mem_singleton.mp hm, List.isChain_append]
      refine ⟨List.isChain_of_mem_splitBy (h ▸ List.mem_append_right _ List.mem_cons_self),
        List.isChain_singleton _, fun a ha y hy => ?_⟩
      rw [← Option.some.inj hy]
      exact hr a ha
  · rw [List.isChain_append]
    refine ⟨hends.1, List.isChain_singleton _, fun x hx y hy => ?_⟩
    obtain ⟨hx', hg', hlast⟩ := hends.2.2 x hx g rfl
    obtain rfl : g ++ [b] = y := Option.some.inj hy
    refine ⟨hx', List.append_ne_nil_of_left_ne_nil hg _, ?_⟩
    rwa [List.head_append_of_ne_nil hg]

/-- One more item opens a group when the last item does not go on with
it. -/
theorem splitBy_snoc_open {r : α → α → Bool} {b : α}
    (h : ∀ g ∈ (l.splitBy r).getLast?, ∀ a ∈ g.getLast?, r a b = false) :
    (l ++ [b]).splitBy r = l.splitBy r ++ [[b]] := by
  have hflat : l ++ [b] = (l.splitBy r ++ [[b]]).flatten := by
    rw [List.flatten_append, List.flatten_splitBy, List.flatten_singleton]
  conv => lhs; rw [hflat]
  refine List.splitBy_flatten ?_ ?_ ?_
  · rw [List.mem_append, not_or]
    exact ⟨List.nil_notMem_splitBy r l, fun hmem => by simp at hmem⟩
  · intro m hm
    rcases List.mem_append.mp hm with hm | hm
    · exact List.isChain_of_mem_splitBy hm
    · rw [List.mem_singleton.mp hm]
      exact List.isChain_singleton _
  · rw [List.isChain_append]
    refine ⟨List.isChain_getLast_head_splitBy r l, List.isChain_singleton _, fun x hx y hy => ?_⟩
    obtain rfl : [b] = y := Option.some.inj hy
    have hx' : x ≠ [] := List.ne_nil_of_mem_splitBy (List.mem_of_mem_getLast? hx)
    exact ⟨hx', List.cons_ne_nil _ _, h x hx _ (List.getLast_mem_getLast? hx')⟩

section Keyed

variable [DecidableEq κ] (key : α → κ)

/-- The items in groups of one key. -/
def groups (l : List α) : List (List α) := l.splitBy fun a b => key a = key b

theorem groups_flatten (l : List α) : (groups key l).flatten = l := List.flatten_splitBy _ l

theorem nil_notMem_groups (l : List α) : [] ∉ groups key l := List.nil_notMem_splitBy _ l

variable {key}

theorem key_of_mem_groups {l g : List α} (hg : g ∈ groups key l) {a b : α}
    (ha : a ∈ g) (hb : b ∈ g) : key a = key b := by
  have htrans : IsTrans α fun a b => key a = key b := ⟨fun _ _ _ h h' => h.trans h'⟩
  have hsymm : Std.Symm fun a b : α => key a = key b := ⟨fun _ _ h => h.symm⟩
  have hpair : g.Pairwise fun a b => key a = key b :=
    List.isChain_iff_pairwise.mp
      ((List.isChain_of_mem_splitBy hg).imp fun _ _ h => of_decide_eq_true h)
  rcases eq_or_ne a b with rfl | hne
  · rfl
  · exact hpair.forall ha hb hne

variable (key) in
/-- One more item joins the last group of its key or opens a group. -/
theorem groups_snoc (l : List α) (b : α) :
    (∃ gs g, groups key l = gs ++ [g] ∧ (∀ a ∈ g, key a = key b)
        ∧ groups key (l ++ [b]) = gs ++ [g ++ [b]])
    ∨ ((∀ g ∈ (groups key l).getLast?, ∀ a ∈ g, key a ≠ key b)
        ∧ groups key (l ++ [b]) = groups key l ++ [[b]]) := by
  cases hlast : (groups key l).getLast? with
  | none =>
    refine .inr ⟨nofun, splitBy_snoc_open fun g hg => ?_⟩
    rw [← groups, hlast] at hg
    cases hg
  | some g =>
    obtain ⟨gs, hgs⟩ := List.getLast?_eq_some_iff.mp hlast
    have hmem : g ∈ groups key l := List.mem_of_getLast? hlast
    have hne : g ≠ [] := List.ne_nil_of_mem_splitBy hmem
    by_cases hkey : key (g.getLast hne) = key b
    · refine .inl ⟨gs, g, hgs, fun a ha => ?_, splitBy_snoc_join hgs fun a ha => ?_⟩
      · rw [key_of_mem_groups hmem ha (List.getLast_mem hne), hkey]
      · rw [key_of_mem_groups hmem (List.mem_of_mem_getLast? ha) (List.getLast_mem hne), hkey]
        exact decide_eq_true rfl
    · have hdiff : ∀ a ∈ g, key a ≠ key b := fun a ha h =>
        hkey (key_of_mem_groups hmem (List.getLast_mem hne) ha ▸ h)
      refine .inr ⟨fun g' hg' => Option.some.inj hg' ▸ hdiff, splitBy_snoc_open fun g' hg' => ?_⟩
      rw [← groups, hlast] at hg'
      exact fun a ha => decide_eq_false
        (hdiff a (Option.some.inj hg' ▸ List.mem_of_mem_getLast? ha))

end Keyed

/-- The items of some of the groups. -/
theorem flatten_filter (gs : List (List α)) {q : List α → Bool} {r : α → Bool}
    (h : ∀ g ∈ gs, ∀ a ∈ g, q g = r a) : (gs.filter q).flatten = gs.flatten.filter r := by
  induction gs with
  | nil => rfl
  | cons g gs ih =>
    obtain ⟨hg, hgs⟩ := List.forall_mem_cons.mp h
    rw [List.flatten_cons, List.filter_append, ← ih hgs]
    cases hq : q g with
    | true =>
      have hall : g.filter r = g := List.filter_eq_self.mpr fun a ha => (hg a ha).symm.trans hq
      rw [List.filter_cons_of_pos hq, List.flatten_cons, hall]
    | false =>
      have hnone : g.filter r = [] := List.filter_eq_nil_iff.mpr fun a ha h =>
        Bool.false_ne_true (hq.symm.trans ((hg a ha).trans h))
      rw [List.filter_cons_of_neg (by simp [hq]), hnone, List.nil_append]

/-- The groups of items in the order of their keys go up. -/
theorem groups_lt {γ : Type} [LinearOrder γ] {key : α → γ}
    (h : l.Pairwise fun a b => key a ≤ key b) :
    (groups key l).Pairwise fun g g' => ∀ a ∈ g, ∀ b ∈ g', key a < key b := by
  induction l using List.reverseRecOn with
  | nil => exact List.Pairwise.nil
  | append_singleton l b ih =>
    obtain ⟨hl, -, hlast⟩ := List.pairwise_append.mp h
    have ih := ih hl
    rcases groups_snoc key l b with ⟨gs, g, hgs, hkey, hsnoc⟩ | ⟨hdiff, hsnoc⟩
    · rw [hgs, List.pairwise_append] at ih
      have hg : g ≠ [] := fun hg => nil_notMem_groups key l (hgs ▸ hg ▸ by simp)
      obtain ⟨c, hc⟩ := List.exists_mem_of_ne_nil g hg
      rw [hsnoc, List.pairwise_append]
      refine ⟨ih.1, List.pairwise_singleton _ _, fun g' hg' g'' hg'' a ha d hd => ?_⟩
      cases List.mem_singleton.mp hg''
      rcases List.mem_append.mp hd with hd | hd
      · exact ih.2.2 g' hg' g (List.mem_singleton_self g) a ha d hd
      · rw [List.mem_singleton.mp hd, ← hkey c hc]
        exact ih.2.2 g' hg' g (List.mem_singleton_self g) a ha c hc
    · rw [hsnoc, List.pairwise_append]
      refine ⟨ih, List.pairwise_singleton _ _, fun g' hg' g'' hg'' a ha d hd => ?_⟩
      cases List.mem_singleton.mp hg''
      obtain rfl := List.mem_singleton.mp hd
      have hmem : ∀ c, (∃ g ∈ groups key l, c ∈ g) → key c ≤ key d := by
        rintro c ⟨g, hg, hc⟩
        exact hlast c (groups_flatten key l ▸ List.mem_flatten_of_mem hg hc) d
          (List.mem_singleton_self d)
      rcases List.eq_nil_or_concat (groups key l) with hnil | ⟨gs, g, hgs⟩
      · rw [hnil] at hg'
        cases hg'
      rw [List.concat_eq_append] at hgs
      have hglast : g ∈ groups key l := hgs ▸ by simp
      rw [hgs, List.getLast?_concat] at hdiff
      rw [hgs] at hg' ih
      rcases List.mem_append.mp hg' with hg' | hg'
      · have hg : g ≠ [] := fun hg => nil_notMem_groups key l (hg ▸ hglast)
        obtain ⟨c, hc⟩ := List.exists_mem_of_ne_nil g hg
        have hlt := (List.pairwise_append.mp ih).2.2 g' hg' g (List.mem_singleton_self g) a ha c hc
        exact lt_of_lt_of_le hlt (hmem c ⟨g, hglast, hc⟩)
      · cases List.mem_singleton.mp hg'
        exact lt_of_le_of_ne (hmem a ⟨g', hglast, ha⟩) (hdiff g' rfl a ha)

/-- To go through the items key by key is to go through all of them. -/
theorem flatMap_filter_perm [DecidableEq κ] {key : β → κ} {keys : List κ} (hkeys : keys.Nodup)
    {l : List β} (hl : ∀ x ∈ l, key x ∈ keys) :
    (keys.flatMap fun k => l.filter fun x => key x = k).Perm l := by
  induction keys generalizing l with
  | nil =>
    cases l with
    | nil => exact .refl _
    | cons x l => cases hl x List.mem_cons_self
  | cons k keys ih =>
    obtain ⟨hk, hkeys⟩ := List.nodup_cons.mp hkeys
    have hrest : ∀ x ∈ l.filter (fun x => ! decide (key x = k)), key x ∈ keys := by
      intro x hx
      obtain ⟨hmem, hne⟩ := List.mem_filter.mp hx
      exact (List.mem_cons.mp (hl x hmem)).resolve_left (by simpa using hne)
    have hsame : (keys.flatMap fun k' => (l.filter (fun x => ! decide (key x = k))).filter
          fun x => key x = k')
        = keys.flatMap fun k' => l.filter fun x => key x = k' := by
      refine List.flatMap_congr fun k' hk' => ?_
      rw [List.filter_filter]
      refine List.filter_congr fun x _ => ?_
      by_cases hx : key x = k'
      · have hne : key x ≠ k := fun h => hk (h ▸ hx ▸ hk')
        simp [hx, hx ▸ hne]
      · simp [hx]
    have hperm := ih hkeys hrest
    rw [hsame] at hperm
    rw [List.flatMap_cons]
    exact (List.Perm.append_left _ hperm).trans (List.filter_append_perm _ l)

end Tiling
