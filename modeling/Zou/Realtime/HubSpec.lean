import Mathlib.Data.List.Perm.Lattice
import Zou.Realtime.Hub

/-!
# Presence as sets of metas

The map of a topic reads as who is on it, and a copy as a set of metas
filed by key: a join puts one meta in, a leave takes one out, and the state
is the set of those on the topic.
-/

namespace Zou.Hub

open Realtime

/-! ## Who is on a topic -/

theorem tracked_putOn (presence : OrdMap String (OrdMap Nat Meta)) (topic : String) (who : Nat)
    (m : Meta) (t : String) (w : Nat) : tracked (putOn presence topic who m) t w =
      if t = topic ∧ w = who then some m else tracked presence t w := by
  unfold tracked putOn
  rw [OrdMap.get?_insert]
  by_cases ht : t = topic
  · subst ht
    rw [if_pos rfl, Option.bind_some, OrdMap.get?_insert]
    by_cases hw : w = who
    · rw [if_pos hw, if_pos ⟨rfl, hw⟩]
    · rw [if_neg hw, if_neg fun h => hw h.2]
      cases presence.get? t <;> rfl
  · rw [if_neg ht, if_neg fun h => ht h.1]

theorem tracked_remove (presence : OrdMap String (OrdMap Nat Meta)) (topic t : String) (w : Nat) :
    tracked (presence.remove topic) t w = if t = topic then none else tracked presence t w := by
  unfold tracked
  rw [OrdMap.get?_remove]
  split <;> rfl

theorem tracked_takeOff (presence : OrdMap String (OrdMap Nat Meta)) (topic : String) (who : Nat)
    (t : String) (w : Nat) : tracked (takeOff presence topic who) t w =
      if t = topic ∧ w = who then none else tracked presence t w := by
  unfold takeOff
  cases hg : presence.get? topic with
  | none =>
    by_cases h : t = topic ∧ w = who
    · rw [if_pos h, h.1]
      unfold tracked
      rw [hg]
      rfl
    · rw [if_neg h]
  | some on =>
    have hon : t = topic → tracked presence t w = on.get? w := by
      rintro rfl
      unfold tracked
      rw [hg]
      rfl
    dsimp only
    split
    · rename_i hempty
      rw [tracked_remove]
      have hnone := OrdMap.get?_remove on who w
      rw [OrdMap.entries_eq_nil.mp (List.isEmpty_iff.mp hempty) w] at hnone
      by_cases ht : t = topic
      · rw [if_pos ht]
        by_cases hw : w = who
        · rw [if_pos ⟨ht, hw⟩]
        · rw [if_neg fun h => hw h.2, hon ht, hnone, if_neg hw]
      · rw [if_neg ht, if_neg fun h => ht h.1]
    · unfold tracked
      rw [OrdMap.get?_insert]
      by_cases ht : t = topic
      · rw [if_pos ht, Option.bind_some, OrdMap.get?_remove]
        by_cases hw : w = who
        · rw [if_pos hw, if_pos ⟨ht, hw⟩]
        · rw [if_neg hw, if_neg fun h => hw h.2]
          exact (hon ht).symm
      · rw [if_neg ht, if_neg fun h => ht h.1]

/-! ## Copies -/

/-- A presence object that holds a set of metas. -/
def Copies (copy : Presence) (S : Meta → Prop) : Prop :=
  ∀ key, ∃ ms : List Meta, ms.Nodup ∧ (∀ m, m ∈ ms ↔ S m ∧ m.key = key) ∧
    (copy.get? key = none ↔ ms = []) ∧ (copy.get? key).getD [] = ms.map Meta.asJson

theorem refOf_asJson (m : Meta) : refOf m.asJson = some m.phxRef := by
  unfold refOf Meta.asJson
  rw [Value.get_object, Map.get?_insert, if_pos rfl]
  rfl

theorem filter_refs (ms : List Meta) (m : Meta) :
    (ms.map Meta.asJson).filter (fun v => decide (refOf v ∉ [m.asJson].map refOf)) =
      (ms.filter fun m' => decide (m'.phxRef ≠ m.phxRef)).map Meta.asJson := by
  rw [List.filter_map]
  congr 1
  refine List.filter_congr fun m' _ => ?_
  simp only [Function.comp_apply, refOf_asJson, List.map_cons, List.map_nil, List.mem_singleton,
    Option.some.injEq, ne_eq]

theorem Copies.empty : Copies OrdMap.empty fun _ => False := fun _ =>
  ⟨[], List.nodup_nil, fun _ => ⟨fun h => absurd h List.not_mem_nil, fun h => h.1.elim⟩,
    ⟨fun _ => rfl, fun _ => rfl⟩, rfl⟩

theorem Copies.congr {copy : Presence} {S T : Meta → Prop} (h : Copies copy S)
    (hST : ∀ m, S m ↔ T m) : Copies copy T :=
  funext (fun m => propext (hST m)) ▸ h

variable {S : Meta → Prop} {copy : Presence}

/-- The metas of one key changed, and those of every other left alone. -/
theorem Copies.change {copy' : Presence} {T : Meta → Prop} (h : Copies copy S)
    (key : String) (ms : List Meta) (hother : ∀ k, k ≠ key → copy'.get? k = copy.get? k)
    (hST : ∀ m, m.key ≠ key → (T m ↔ S m)) (hnodup : ms.Nodup)
    (hmem : ∀ m, m ∈ ms ↔ T m ∧ m.key = key) (hnone : copy'.get? key = none ↔ ms = [])
    (hmetas : (copy'.get? key).getD [] = ms.map Meta.asJson) : Copies copy' T := by
  intro k
  by_cases hk : k = key
  · subst hk
    exact ⟨ms, hnodup, hmem, hnone, hmetas⟩
  · obtain ⟨ms', hnodup', hmem', hnone', hmetas'⟩ := h k
    rw [← hother k hk] at hnone' hmetas'
    refine ⟨ms', hnodup', fun m => (hmem' m).trans ?_, hnone', hmetas'⟩
    refine and_congr_left fun heq => (hST m ?_).symm
    rw [heq]
    exact hk

variable {m : Meta}

theorem mem_unreffed {ms : List Meta} {m' : Meta} {key : String}
    (hmem : ∀ m, m ∈ ms ↔ S m ∧ m.key = key) (href : ∀ m', S m' → m'.phxRef = m.phxRef → m' = m) :
    m' ∈ ms.filter (fun m' => decide (m'.phxRef ≠ m.phxRef)) ↔ (S m' ∧ m' ≠ m) ∧ m'.key = key := by
  rw [List.mem_filter, hmem, decide_eq_true_eq]
  constructor
  · rintro ⟨⟨hS, hkey⟩, hne⟩
    exact ⟨⟨hS, fun heq => hne (heq ▸ rfl)⟩, hkey⟩
  · rintro ⟨⟨hS, hne⟩, hkey⟩
    exact ⟨⟨hS, hkey⟩, fun heq => hne (href m' hS heq)⟩

theorem Copies.arrive (h : Copies copy S) (href : ∀ m', S m' → m'.phxRef = m.phxRef → m' = m) :
    Copies (Hub.arrive copy (m.key, [m.asJson])) fun m' => S m' ∨ m' = m := by
  obtain ⟨ms, hnodup, hmem, -, hmetas⟩ := h m.key
  have hget : ∀ k, (Hub.arrive copy (m.key, [m.asJson])).get? k =
      if k = m.key then
        some ((ms.filter fun m' => decide (m'.phxRef ≠ m.phxRef)).map Meta.asJson ++ [m.asJson])
      else copy.get? k := by
    intro k
    unfold Hub.arrive
    dsimp only
    rw [hmetas, filter_refs, OrdMap.get?_insert]
  refine h.change m.key ((ms.filter fun m' => decide (m'.phxRef ≠ m.phxRef)) ++ [m])
    (fun k hk => by rw [hget, if_neg hk]) (fun m' hne => ?_) ?_ (fun m' => ?_) ?_ ?_
  · refine or_iff_left ?_
    rintro rfl
    exact hne rfl
  · rw [List.nodup_append]
    refine ⟨hnodup.filter _, List.nodup_singleton _, fun a ha b hb => ?_⟩
    rw [List.mem_singleton.mp hb]
    exact ((mem_unreffed hmem href).mp ha).1.2
  · rw [List.mem_append, mem_unreffed hmem href, List.mem_singleton]
    constructor
    · rintro (⟨⟨hS, -⟩, hkey⟩ | rfl)
      · exact ⟨.inl hS, hkey⟩
      · exact ⟨.inr rfl, rfl⟩
    · rintro ⟨hS, hkey⟩
      by_cases heq : m' = m
      · exact .inr heq
      · exact .inl ⟨⟨hS.resolve_right heq, heq⟩, hkey⟩
  · rw [hget, if_pos rfl]
    simp
  · rw [hget, if_pos rfl, Option.getD_some, List.map_append]
    rfl

theorem Copies.depart (h : Copies copy S) (href : ∀ m', S m' → m'.phxRef = m.phxRef → m' = m) :
    Copies (Hub.depart copy (m.key, [m.asJson])) fun m' => S m' ∧ m' ≠ m := by
  obtain ⟨ms, hnodup, hmem, hnone, hmetas⟩ := h m.key
  have hother : ∀ k, k ≠ m.key →
      (Hub.depart copy (m.key, [m.asJson])).get? k = copy.get? k := by
    intro k hk
    unfold Hub.depart
    cases copy.get? m.key with
    | none => rfl
    | some metas =>
      dsimp only
      split
      · rw [OrdMap.get?_remove, if_neg hk]
      · rw [OrdMap.get?_insert, if_neg hk]
  have hkept : (Hub.depart copy (m.key, [m.asJson])).get? m.key =
      if (ms.filter fun m' => decide (m'.phxRef ≠ m.phxRef)) = [] then none
      else some ((ms.filter fun m' => decide (m'.phxRef ≠ m.phxRef)).map Meta.asJson) := by
    unfold Hub.depart
    cases hg : copy.get? m.key with
    | none =>
      rw [hnone.mp hg, List.filter_nil, if_pos rfl]
      exact hg
    | some metas =>
      rw [hg, Option.getD_some] at hmetas
      dsimp only
      rw [hmetas, filter_refs]
      by_cases hms : (ms.filter fun m' => decide (m'.phxRef ≠ m.phxRef)) = []
      · rw [hms, if_pos rfl, if_pos (by rfl), OrdMap.get?_remove, if_pos rfl]
      · rw [if_neg hms, if_neg, OrdMap.get?_insert, if_pos rfl]
        rw [List.isEmpty_iff, List.map_eq_nil_iff]
        exact hms
  refine h.change m.key (ms.filter fun m' => decide (m'.phxRef ≠ m.phxRef)) hother (fun m' hne => ?_)
    (hnodup.filter _) (fun m' => mem_unreffed hmem href) ?_ ?_
  · refine and_iff_left ?_
    rintro rfl
    exact hne rfl
  · rw [hkept]
    split
    · exact ⟨fun _ => ‹_›, fun _ => rfl⟩
    · exact ⟨nofun, fun hms => absurd hms ‹_›⟩
  · rw [hkept]
    split
    · rename_i hms
      rw [hms]
      rfl
    · rfl

theorem Copies.push (h : Copies copy S)
    (hm : ¬ S m) : Copies (Hub.push copy m) fun m' => S m' ∨ m' = m := by
  obtain ⟨ms, hnodup, hmem, -, hmetas⟩ := h m.key
  have hget : ∀ k, (Hub.push copy m).get? k =
      if k = m.key then some (ms.map Meta.asJson ++ [m.asJson]) else copy.get? k := by
    intro k
    unfold Hub.push
    rw [hmetas, OrdMap.get?_insert]
  refine h.change m.key (ms ++ [m]) (fun k hk => by rw [hget, if_neg hk]) (fun m' hne => ?_) ?_ (fun m' => ?_) ?_ ?_
  · refine or_iff_left ?_
    rintro rfl
    exact hne rfl
  · rw [List.nodup_append]
    refine ⟨hnodup, List.nodup_singleton _, fun a ha b hb => ?_⟩
    rw [List.mem_singleton.mp hb]
    rintro rfl
    exact hm ((hmem a).mp ha).1
  · rw [List.mem_append, hmem, List.mem_singleton]
    constructor
    · rintro (⟨hS, hkey⟩ | rfl)
      · exact ⟨.inl hS, hkey⟩
      · exact ⟨.inr rfl, rfl⟩
    · rintro ⟨hS | rfl, hkey⟩
      · exact .inl ⟨hS, hkey⟩
      · exact .inr rfl
  · rw [hget, if_pos rfl]
    simp
  · rw [hget, if_pos rfl, Option.getD_some, List.map_append]
    rfl

theorem Copies.pushes {ms : List Meta} : ∀ {copy : Presence} {S : Meta → Prop}, Copies copy S →
    ms.Nodup → (∀ m ∈ ms, ¬ S m) →
    Copies (ms.foldl Hub.push copy) fun m => S m ∨ m ∈ ms := by
  induction ms with
  | nil =>
    intro copy S h _ _
    exact h.congr fun m => by simp
  | cons m ms ih =>
    intro copy S h hnodup hnew
    obtain ⟨hm, hnodup⟩ := List.nodup_cons.mp hnodup
    refine (ih (h.push (hnew m List.mem_cons_self)) hnodup ?_).congr fun m' => ?_
    · rintro m' hm' (hS | rfl)
      · exact hnew m' (.tail _ hm') hS
      · exact hm hm'
    · rw [List.mem_cons, or_assoc]

/-- Whether anyone is on a topic with a meta. -/
def On (presence : OrdMap String (OrdMap Nat Meta)) (topic : String) (m : Meta) : Prop :=
  ∃ who, tracked presence topic who = some m

theorem copies_state {presence : OrdMap String (OrdMap Nat Meta)} {topic : String}
    (hone : ∀ who who' m, tracked presence topic who = some m →
      tracked presence topic who' = some m → who = who') :
    Copies (state presence topic) (On presence topic) := by
  unfold state
  cases hg : presence.get? topic with
  | none =>
    refine Copies.empty.congr fun m => ⟨False.elim, ?_⟩
    rintro ⟨who, hwho⟩
    unfold tracked at hwho
    rw [hg] at hwho
    cases hwho
  | some on =>
    have htracked : ∀ who m, tracked presence topic who = some m ↔ (who, m) ∈ on.entries := by
      intro who m
      unfold tracked
      rw [hg, Option.bind_some, OrdMap.get?_eq_some]
    have hnodup : (on.entries.map Prod.snd).Nodup := by
      refine List.Nodup.map_on ?_ (on.sorted.imp fun hlt heq => ?_)
      · rintro ⟨who, m⟩ hm ⟨who', m'⟩ hm' rfl
        rw [hone who who' m ((htracked _ _).mpr hm) ((htracked _ _).mpr hm')]
      · rw [heq] at hlt
        exact lt_irrefl _ hlt
    refine (Copies.empty.pushes hnodup fun _ _ => not_false).congr fun m => ?_
    rw [false_or, List.mem_map]
    constructor
    · rintro ⟨⟨who, m⟩, hm, rfl⟩
      exact ⟨who, (htracked _ _).mpr hm⟩
    · rintro ⟨who, hwho⟩
      exact ⟨(who, m), (htracked _ _).mp hwho, rfl⟩

theorem Copies.same {a b : Presence} {T : Meta → Prop} (ha : Copies a S) (hb : Copies b T)
    (hST : ∀ m, S m ↔ T m) : Same a b := by
  intro key
  obtain ⟨ms, hnodup, hmem, hnone, hmetas⟩ := ha key
  obtain ⟨ms', hnodup', hmem', hnone', hmetas'⟩ := hb key
  have hperm : ms.Perm ms' := by
    refine (List.perm_ext_iff_of_nodup hnodup hnodup').mpr fun m => ?_
    rw [hmem, hmem', hST]
  refine ⟨?_, ?_⟩
  · rw [hnone, hnone']
    exact ⟨fun h => List.perm_nil.mp (h ▸ hperm).symm, fun h => List.perm_nil.mp (h ▸ hperm)⟩
  · rw [hmetas, hmetas']
    exact hperm.map _

end Zou.Hub
