import Zou.Realtime.Reader

/-!
# The listeners, the index and the queues

The listeners, the index and the bindings ever made agree, and a send to a
subscriber leaves the loop and the log alone: it puts a message in a queue,
or the subscriber is dropped or told.
-/

namespace Zou.Reader

variable {A B C : Type} {s s' : State A B C}

/-! ## The listeners and the index -/

/-- The listeners, the index and the bindings ever made agree. -/
structure Book (s : State A B C) : Prop where
  sub : ∀ id b, s.subs.get? id = some b → ∃ who j, s.listeners.get? b.listener = some who ∧
    id ∈ who.bindings ∧ s.joins id = some j ∧ j.listener = b.listener ∧ j.binding = b.binding ∧
    j.asker = who.asker ∧ j.unbound = none
  join : ∀ id j, s.joins id = some j → j.unbound = none → s.listeners.get? j.listener ≠ none →
    s.subs.get? id = some ⟨j.listener, j.binding⟩
  own : ∀ l who, s.listeners.get? l = some who → ∀ id ∈ who.bindings,
    ∃ b, s.subs.get? id = some b ∧ b.listener = l
  listener_le : ∀ l who, s.listeners.get? l = some who → l ≤ s.next
  join_le : ∀ id j, s.joins id = some j → id ≤ s.next ∧ j.listener ≤ s.next

/-- Two tables of listeners that differ in the queues at most. -/
def Alike (m m' : OrdMap Nat (Listener A)) : Prop :=
  ∀ l, (m'.get? l).map (fun who => (who.asker, who.bindings)) =
    (m.get? l).map fun who => (who.asker, who.bindings)

variable {m m' : OrdMap Nat (Listener A)}

theorem Alike.none (h : Alike m m') (l : Nat) : m'.get? l = none ↔ m.get? l = none := by
  have hl := h l
  cases hm : m.get? l <;> cases hm' : m'.get? l <;> simp [hm, hm'] at hl ⊢

variable {who : Listener A} {l : Nat}

theorem Alike.some (h : Alike m m')
    (hl : m'.get? l = some who) : ∃ who', m.get? l = some who' ∧ who'.asker = who.asker ∧
      who'.bindings = who.bindings := by
  have heq := h l
  rw [hl, Option.map_some] at heq
  obtain ⟨who', hm, heq⟩ := Option.map_eq_some_iff.mp heq.symm
  obtain ⟨hasker, hbindings⟩ := Prod.mk.inj heq
  exact ⟨who', hm, hasker, hbindings⟩

theorem Alike.symm (h : Alike m m') : Alike m' m :=
  fun l => (h l).symm

theorem alike_insert
    (hl : m.get? l = some who) (queue : List Heard) : Alike m (m.insert l { who with queue }) := by
  intro k
  rw [OrdMap.get?_insert]
  split
  · rename_i heq
    rw [heq, hl]
    rfl
  · rfl

theorem Book.alike (h : Book s) {listeners : OrdMap Nat (Listener A)}
    (halike : Alike s.listeners listeners) (hsubs : s'.subs = s.subs)
    (hlisteners : s'.listeners = listeners) (hjoins : s'.joins = s.joins)
    (hnext : s'.next = s.next) : Book s' := by
  subst hlisteners
  refine ⟨fun id b hb => ?_, fun id j hj hu hl => ?_, fun l who hwho id hid => ?_,
    fun l who hwho => ?_, fun id j hj => ?_⟩
  · rw [hsubs] at hb
    obtain ⟨who, j, hwho, hid, hj, hjl, hjb, hja, hju⟩ := h.sub id b hb
    obtain ⟨who', hwho', hasker, hbindings⟩ := halike.symm.some hwho
    exact ⟨who', j, hwho', hbindings ▸ hid, hjoins ▸ hj, hjl, hjb, hja.trans hasker.symm, hju⟩
  · rw [hsubs]
    rw [hjoins] at hj
    exact h.join id j hj hu fun hno => hl ((halike.none _).mpr hno)
  · rw [hsubs]
    obtain ⟨who', hwho', -, hbindings⟩ := halike.some hwho
    exact h.own l who' hwho' id (hbindings ▸ hid)
  · rw [hnext]
    obtain ⟨who', hwho', -, -⟩ := halike.some hwho
    exact h.listener_le l who' hwho'
  · rw [hnext]
    exact h.join_le id j (hjoins ▸ hj)

theorem Book.hungUp (h : Book s) (l : Nat) : Book (Reader.hungUp s l) := by
  unfold Reader.hungUp
  cases hl : s.listeners.get? l with
  | none => exact h
  | some who =>
    have hgone : ∀ k, (s.listeners.remove l).get? k = if k = l then none else s.listeners.get? k :=
      OrdMap.get?_remove _ _
    have hsubs : ∀ id, (who.bindings.foldl OrdMap.remove s.subs).get? id =
        if id ∈ who.bindings then none else s.subs.get? id := OrdMap.get?_foldl_remove _ _
    refine ⟨fun id b hb => ?_, fun id j hj hu hjl => ?_, fun k who' hwho' id hid => ?_,
      fun k who' hwho' => ?_, h.join_le⟩
    · rw [hsubs] at hb
      split at hb
      · cases hb
      · rename_i hid
        obtain ⟨who', j, hwho', hid', hj⟩ := h.sub id b hb
        refine ⟨who', j, ?_, hid', hj⟩
        rw [hgone, if_neg]
        · exact hwho'
        · intro heq
          rw [heq, hl] at hwho'
          cases hwho'
          exact hid hid'
    · rw [hgone] at hjl
      have hne : j.listener ≠ l := fun heq => hjl (if_pos heq)
      rw [if_neg hne] at hjl
      have hsub := h.join id j hj hu hjl
      rw [hsubs, if_neg]
      · exact hsub
      · intro hid
        obtain ⟨b, hb, hbl⟩ := h.own l who hl id hid
        cases hsub.symm.trans hb
        exact hne hbl
    · rw [hgone] at hwho'
      split at hwho'
      · cases hwho'
      · rename_i hne
        obtain ⟨b, hb, hbl⟩ := h.own k who' hwho' id hid
        refine ⟨b, ?_, hbl⟩
        rw [hsubs, if_neg]
        · exact hb
        · intro hid'
          obtain ⟨b', hb', hbl'⟩ := h.own l who hl id hid'
          cases hb.symm.trans hb'
          exact hne (hbl.symm.trans hbl')
    · rw [hgone] at hwho'
      split at hwho'
      · cases hwho'
      · exact h.listener_le k who' hwho'

/-! ## Sending -/

/-- What sending to subscribers leaves as it is, and what it only adds to. -/
structure Sends (s s' : State A B C) : Prop where
  log : s'.log = s.log
  next : s'.next = s.next
  tap : s'.tap = s.tap
  phase : s'.phase = s.phase
  tapped : s'.tapped = s.tapped
  joins : s'.joins = s.joins
  gaps : ∀ x ∈ s.gaps, x ∈ s'.gaps
  handed : ∀ h ∈ s.handed, h ∈ s'.handed
  gone : ∀ l, s.listeners.get? l = none → s'.listeners.get? l = none
  book : Book s → Book s'

theorem Sends.refl (s : State A B C) : Sends s s :=
  ⟨rfl, rfl, rfl, rfl, rfl, rfl, fun _ => id, fun _ => id, fun _ => id, id⟩

theorem Sends.trans {s'' : State A B C} (h : Sends s s') (h' : Sends s' s'') : Sends s s'' where
  log := h'.log.trans h.log
  next := h'.next.trans h.next
  tap := h'.tap.trans h.tap
  phase := h'.phase.trans h.phase
  tapped := h'.tapped.trans h.tapped
  joins := h'.joins.trans h.joins
  gaps x hx := h'.gaps x (h.gaps x hx)
  handed x hx := h'.handed x (h.handed x hx)
  gone l hl := h'.gone l (h.gone l hl)
  book hb := h'.book (h.book hb)

/-- Told there is a gap just now, or without a queue. -/
def Lost (s : State A B C) (l : Nat) : Prop :=
  (∃ x ∈ s.gaps, x.1 = l ∧ s.next ≤ x.2) ∨ s.listeners.get? l = none

theorem Sends.lost (h : Sends s s') (hl : Lost s l) : Lost s' l := by
  rcases hl with ⟨x, hx, hxl, hle⟩ | hgone
  · exact .inl ⟨x, h.gaps x hx, hxl, h.next ▸ hle⟩
  · exact .inr (h.gone l hgone)

theorem Sends.excused (h : Sends s s') {id : Nat} {j : Join A B} (hj : Excused s id j) :
    Excused s' id j := by
  rcases hj with ⟨x, hx, hxl⟩ | hgone
  · exact .inl ⟨x, h.gaps x hx, hxl⟩
  · exact .inr (h.gone _ hgone)

theorem Lost.excused {id : Nat} {j : Join A B} (h : Lost s j.listener) (hid : id ≤ s.next) :
    Excused s id j := by
  rcases h with ⟨x, hx, hxl, hle⟩ | hgone
  · exact .inl ⟨x, hx, hxl, hid.trans hle⟩
  · exact .inr hgone

theorem hungUp_gone (s : State A B C) (l : Nat) : (hungUp s l).listeners.get? l = none := by
  unfold hungUp
  cases hl : s.listeners.get? l with
  | none => exact hl
  | some who =>
    rw [OrdMap.get?_remove, if_pos rfl]

theorem sends_hungUp (s : State A B C) (l : Nat) :
    Sends s (hungUp s l) ∧ (hungUp s l).handed = s.handed := by
  have hbook : Book s → Book (hungUp s l) := fun h => h.hungUp l
  unfold hungUp at hbook ⊢
  cases hl : s.listeners.get? l with
  | none => exact ⟨Sends.refl s, rfl⟩
  | some who =>
    rw [hl] at hbook
    refine ⟨⟨rfl, rfl, rfl, rfl, rfl, rfl, fun _ => id, fun _ => id, fun k hk => ?_, hbook⟩, rfl⟩
    rw [OrdMap.get?_remove, hk, ite_self]

theorem sends_trySend {heard : Heard} (hl : s.listeners.get? l = some who)
    (h : trySend s l who heard = some s') : Sends s s' ∧ s'.handed = s.handed := by
  unfold trySend at h
  split at h
  · obtain ⟨-, heq⟩ := Option.ite_none_right_eq_some.mp h
    cases heq
    have halike := alike_insert hl (who.queue ++ [heard])
    exact ⟨⟨rfl, rfl, rfl, rfl, rfl, rfl, fun _ => id, fun _ => id,
      fun k hk => (halike.none k).mpr hk, fun hb => hb.alike halike rfl rfl rfl rfl⟩, rfl⟩
  · obtain ⟨-, heq⟩ := Option.ite_none_right_eq_some.mp h
    cases heq
    exact ⟨⟨rfl, rfl, rfl, rfl, rfl, rfl, fun _ => id, fun _ => id, fun _ => id,
      fun hb => hb.alike (fun _ => rfl) rfl rfl rfl rfl⟩, rfl⟩

theorem sends_refuse (hl : s.listeners.get? l = some who) :
    Sends s (refuse s l who) ∧ (refuse s l who).handed = s.handed ∧ Lost (refuse s l who) l := by
  unfold refuse
  split
  · obtain ⟨hsends, hhanded⟩ := sends_hungUp s l
    exact ⟨hsends, hhanded, .inr (hungUp_gone s l)⟩
  · rename_i k hk
    refine ⟨⟨rfl, rfl, rfl, rfl, rfl, rfl, fun x hx => List.mem_append_left _ hx, fun _ => id,
      fun _ => id, fun hb => hb.alike (fun _ => rfl) rfl rfl rfl rfl⟩, rfl, .inl ?_⟩
    refine ⟨(l, s.next), List.mem_append_right _ (List.mem_map.mpr ⟨(l, who), ?_, rfl⟩), rfl, le_rfl⟩
    exact List.mem_filter.mpr ⟨OrdMap.get?_eq_some.mp hl, decide_eq_true hk⟩

theorem sends_tell (s : State A B C) (l : Nat) :
    Sends s (tell s l) ∧ (tell s l).handed = s.handed ∧ Lost (tell s l) l := by
  unfold tell
  cases hl : s.listeners.get? l with
  | none => exact ⟨Sends.refl s, rfl, .inr hl⟩
  | some who =>
    dsimp only
    cases ht : trySend s l who .gap with
    | none => exact sends_refuse hl
    | some s₁ =>
      obtain ⟨hsends, hhanded⟩ := sends_trySend hl ht
      have htold : Sends s₁ { s₁ with gaps := s₁.gaps ++ [(l, s₁.next)] } :=
        ⟨rfl, rfl, rfl, rfl, rfl, rfl, fun x hx => List.mem_append_left _ hx, fun _ => id,
          fun _ => id, fun hb => hb.alike (fun _ => rfl) rfl rfl rfl rfl⟩
      exact ⟨hsends.trans htold, hhanded,
        .inl ⟨_, List.mem_append_right _ (List.mem_singleton_self _), rfl, le_rfl⟩⟩

theorem sends_hand (n : Nat) (s : State A B C) (x : Nat × List Nat) : Sends s (hand n s x) ∧
      ((hand n s x).handed = s.handed ∨ (hand n s x).handed = s.handed ++ [⟨x.1, x.2, n⟩]) ∧
      (⟨x.1, x.2, n⟩ ∈ (hand n s x).handed ∨ Lost (hand n s x) x.1) := by
  unfold hand
  cases hl : s.listeners.get? x.1 with
  | none => exact ⟨Sends.refl s, .inl rfl, .inr (.inr hl)⟩
  | some who =>
    dsimp only
    cases ht : trySend s x.1 who (.change x.2 n) with
    | none =>
      obtain ⟨hsends, hhanded, hlost⟩ := sends_refuse hl
      exact ⟨hsends, .inl hhanded, .inr hlost⟩
    | some s₁ =>
      obtain ⟨hsends, hhanded⟩ := sends_trySend hl ht
      have hput : Sends s₁ { s₁ with handed := s₁.handed ++ [⟨x.1, x.2, n⟩] } :=
        ⟨rfl, rfl, rfl, rfl, rfl, rfl, fun _ => id, fun h hh => List.mem_append_left _ hh,
          fun _ => id, fun hb => hb.alike (fun _ => rfl) rfl rfl rfl rfl⟩
      refine ⟨hsends.trans hput, .inr ?_, .inl ?_⟩
      · exact congrArg (· ++ [Handing.mk x.1 x.2 n]) hhanded
      · exact List.mem_append_right _ (List.mem_singleton_self _)

theorem sends_foldl {X : Type} {f : State A B C → X → State A B C} {P : State A B C → X → Prop}
    (hf : ∀ s x, Sends s (f s x) ∧ P (f s x) x) (hP : ∀ {s s'} x, Sends s s' → P s x → P s' x) :
    ∀ (xs : List X) (s : State A B C), Sends s (xs.foldl f s) ∧ ∀ x ∈ xs, P (xs.foldl f s) x := by
  intro xs
  induction xs with
  | nil => exact fun s => ⟨Sends.refl s, nofun⟩
  | cons a xs ih =>
    intro s
    obtain ⟨hsends, hall⟩ := ih (f s a)
    refine ⟨(hf s a).1.trans hsends, fun x hx => ?_⟩
    rcases List.mem_cons.mp hx with rfl | hx
    · exact hP x hsends (hf s x).2
    · exact hall x hx

theorem sends_gap (s : State A B C) :
    Sends s (gap s) ∧ (gap s).handed = s.handed ∧ ∀ l, Lost (gap s) l := by
  have htell := sends_foldl (P := fun s l => Lost s l) (f := tell)
    (fun s l => ⟨(sends_tell (A := A) (B := B) (C := C) s l).1, (sends_tell s l).2.2⟩)
    (fun l hsends hl => hsends.lost hl)
  have hhanded : ∀ (ls : List Nat) (s : State A B C), (ls.foldl tell s).handed = s.handed := by
    intro ls
    induction ls with
    | nil => exact fun s => rfl
    | cons l ls ih => exact fun s => (ih _).trans (sends_tell s l).2.1
  obtain ⟨hsends, hlost⟩ := htell (s.listeners.entries.map Prod.fst) s
  refine ⟨hsends, hhanded _ s, fun l => ?_⟩
  cases hl : s.listeners.get? l with
  | none => exact .inr (hsends.gone l hl)
  | some who => exact hlost l (List.mem_map.mpr ⟨(l, who), OrdMap.get?_eq_some.mp hl, rfl⟩)

end Zou.Reader
