import Zou.DualMedia

/-!
# One owner for a seq

A caller that reports success has put its object on two of the three media.
A medium keeps the first object, so two callers that succeed share a medium
and are one, and a later fetch finds two media that agree.
-/

namespace Zou

open Trace

namespace DualMedia

variable {B : Type}

/-! ## Media keep what they have -/

variable {s : DualMedia B} {i : Nat} {m : Medium} {bytes : B} {x : B × Nat}

theorem putIfAbsent_keeps {m' : Medium} {wire : Wire} (h : s.media m' = some x) : (s.putIfAbsent i m bytes wire).1 m' = some x := by
  have hupdate : s.media m = none → Function.update s.media m (some (bytes, i)) m' = some x := by
    intro hnone
    have hne : m' ≠ m := by
      rintro rfl
      rw [hnone] at h
      cases h
    rw [Function.update_of_ne hne]
    exact h
  unfold putIfAbsent
  cases wire <;> cases hm : s.media m <;> first | exact h | exact hupdate hm

theorem putIfAbsent_ok {wire : Wire} (h : (s.putIfAbsent i m bytes wire).2 = .ok) :
    (s.putIfAbsent i m bytes wire).1 m = some (bytes, i) := by
  unfold putIfAbsent at h ⊢
  cases wire with
  | dropped => cases h
  | lost => cases hm : s.media m <;> rw [hm] at h <;> cases h
  | answered =>
    cases hm : s.media m with
    | none => exact Function.update_self ..
    | some x =>
      rw [hm] at h
      cases h

variable {s' : DualMedia B}

/-- A step changes one call, and adds to the media what `putIfAbsent`
does. -/
theorem next_keeps {l : Nat × DualStep B} (h : next s l = some s') (hm : s.media m = some x) : s'.media m = some x := by
  obtain ⟨i, step⟩ := l
  cases step with
  | put bytes =>
    rw [next] at h
    split at h <;> cases h
    exact hm
  | «seal» bytes =>
    rw [next] at h
    split at h <;> cases h
    exact hm
  | land m' wire =>
    rw [next] at h
    split at h
    · split at h <;> cases h
      exact putIfAbsent_keeps hm
    · cases h
  | receive =>
    rw [next] at h
    split at h
    · split at h <;> cases h
      exact hm
    · cases h
  | timeout =>
    rw [next] at h
    split at h
    · split at h <;> cases h
      exact hm
    · cases h
  | «try» wire =>
    rw [next] at h
    split at h
    · split at h <;> cases h
      exact putIfAbsent_keeps hm
    · cases h
  | stop =>
    rw [next] at h
    split at h
    · split at h <;> cases h
      exact hm
    · split at h <;> cases h
      exact hm
    · cases h

theorem run_keeps {ls : List (Nat × DualStep B)} (h : run next s ls = some s') (hm : s.media m = some x) : s'.media m = some x := by
  have hstep : ∀ s l s', s.media m = some x → next s l = some s' → s'.media m = some x :=
    fun s l s' hm h => next_keeps h hm
  exact run_invariant hstep hm h

/-! ## The writers -/

/-- The media whose ok is still in the channel. -/
def oks (channel : List (Medium × PutReply)) : List Medium :=
  (channel.filter (·.2 = .ok)).map Prod.fst

/-- What a writer knows: the media it counts are distinct and hold its
object. -/
structure PutInv (media : Medium → Option (B × Nat)) (i : Nat) (bytes : B) (w : QuorumPut) :
    Prop where
  nodup : (w.answered ++ (oks w.channel ++ w.pending)).Nodup
  unhedged : w.hedged = false → .standard ∉ w.answered ++ (oks w.channel ++ w.pending)
  answered : ∀ m ∈ w.answered, media m = some (bytes, i)
  sent : ∀ m ∈ oks w.channel, media m = some (bytes, i)
  two : w.result = some (.ok ()) → 2 ≤ w.answered.length

variable {media : Medium → Option (B × Nat)} {w : QuorumPut} {media' : Medium → Option (B × Nat)}

theorem PutInv.mono (h : PutInv media i bytes w)
    (hk : ∀ m x, media m = some x → media' m = some x) : PutInv media' i bytes w :=
  ⟨h.nodup, h.unhedged, fun m hm => hk m _ (h.answered m hm), fun m hm => hk m _ (h.sent m hm), h.two⟩

theorem PutInv.new (media : Medium → Option (B × Nat)) (i : Nat) (bytes : B) :
    PutInv media i bytes .new := by
  refine ⟨by decide, fun _ => by decide, ?_, ?_, ?_⟩
  · exact fun m hm => nomatch hm
  · exact fun m hm => nomatch hm
  · exact fun h => nomatch h

theorem PutInv.launch (h : PutInv media i bytes w) (hedged : w.hedged = false) :
    PutInv media i bytes w.launch := by
  refine ⟨?_, ?_, h.answered, h.sent, h.two⟩
  · show (w.answered ++ (oks w.channel ++ (w.pending ++ [Medium.standard]))).Nodup
    have happ : w.answered ++ (oks w.channel ++ (w.pending ++ [Medium.standard]))
        = (w.answered ++ (oks w.channel ++ w.pending)) ++ [Medium.standard] := by
      simp only [List.append_assoc]
    rw [happ, List.nodup_append]
    refine ⟨h.nodup, List.nodup_singleton _, ?_⟩
    rintro a ha b hb rfl
    rw [List.mem_singleton] at hb
    exact h.unhedged hedged (hb ▸ ha)
  · exact fun hh => nomatch hh

theorem PutInv.settle (h : PutInv media i bytes w) : PutInv media i bytes w.settle := by
  unfold QuorumPut.settle
  split
  · exact ⟨h.nodup, h.unhedged, h.answered, h.sent, fun hr => nomatch hr⟩
  · exact h

variable {r : PutReply}

theorem PutInv.send (h : PutInv media i bytes w) (hm : m ∈ w.pending)
    (hr : r = .ok → media m = some (bytes, i)) : PutInv media i bytes (w.send m r) := by
  -- the put leaves `pending` and, when it is ok, joins the channel
  have hoks : oks (w.channel ++ [(m, r)]) = oks w.channel ++ (if r = .ok then [m] else []) := by
    unfold oks
    rw [List.filter_append, List.map_append]
    by_cases h : r = .ok <;> simp [h]
  have hpart : ∀ a, a ∈ w.answered ++ (oks (w.channel ++ [(m, r)]) ++ w.pending.filter (· ≠ m)) →
      a ∈ w.answered ++ (oks w.channel ++ w.pending) := by
    intro a ha
    rw [hoks] at ha
    simp only [List.mem_append, List.mem_filter] at ha ⊢
    rcases ha with ha | (ha | ha) | ha
    · exact .inl ha
    · exact .inr (.inl ha)
    · split at ha
      · rw [List.mem_singleton] at ha
        exact .inr (.inr (ha ▸ hm))
      · cases ha
    · exact .inr (.inr ha.1)
  obtain ⟨hans, hrest, hdisj⟩ := List.nodup_append.mp h.nodup
  obtain ⟨hok, hpend, hdisj'⟩ := List.nodup_append.mp hrest
  refine ⟨?_, fun hh hin => h.unhedged hh (hpart _ hin), h.answered, ?_, h.two⟩
  · show (w.answered ++ (oks (w.channel ++ [(m, r)]) ++ w.pending.filter (· ≠ m))).Nodup
    refine List.nodup_append.mpr ⟨hans, ?_, ?_⟩
    · rw [hoks]
      refine List.nodup_append.mpr ⟨?_, hpend.filter _, ?_⟩
      · refine List.nodup_append.mpr ⟨hok, ?_, ?_⟩
        · split
          · exact List.nodup_singleton _
          · exact List.nodup_nil
        · intro a ha b hb hab
          split at hb
          · rw [List.mem_singleton] at hb
            exact hdisj' a ha m hm (hab.trans hb)
          · cases hb
      · intro a ha b hb hab
        obtain ⟨hb, hne⟩ := List.mem_filter.mp hb
        rcases List.mem_append.mp ha with ha | ha
        · exact hdisj' a ha b hb hab
        · split at ha
          · rw [List.mem_singleton] at ha
            exact (of_decide_eq_true hne) (hab.symm.trans ha)
          · cases ha
    · intro a ha b hb hab
      refine hdisj a ha b ?_ hab
      have := hpart b (List.mem_append_right _ hb)
      rcases List.mem_append.mp this with hb' | hb'
      · exfalso
        -- `b` is in the channel or pending, so it was not counted yet
        have hb₂ : b ∈ oks w.channel ++ w.pending := by
          rw [hoks] at hb
          simp only [List.mem_append, List.mem_filter] at hb ⊢
          rcases hb with (hb | hb) | hb
          · exact .inl hb
          · split at hb
            · rw [List.mem_singleton] at hb
              exact .inr (hb ▸ hm)
            · cases hb
          · exact .inr hb.1
        exact hdisj b hb' b hb₂ rfl
      · exact hb'
  · intro a ha
    have ha : a ∈ oks (w.channel ++ [(m, r)]) := ha
    rw [hoks] at ha
    rcases List.mem_append.mp ha with ha | ha
    · exact h.sent a ha
    · split at ha
      · rename_i hrok
        rw [List.mem_singleton] at ha
        rw [ha]
        exact hr hrok
      · cases ha

theorem oks_cons (m : Medium) (r : PutReply) (rest : List (Medium × PutReply)) :
    oks ((m, r) :: rest) = (if r = .ok then [m] else []) ++ oks rest := by
  unfold oks
  by_cases h : r = .ok <;> simp [h]

theorem PutInv.receive (h : PutInv media i bytes w) {rest : List (Medium × PutReply)}
    (hch : w.channel = (m, r) :: rest) (hres : w.result = none) :
    PutInv media i bytes (w.receive m r rest) := by
  have hoks := congrArg oks hch
  rw [oks_cons] at hoks
  have hnone : ∀ {o : Option (Except PutError Unit)}, w.result = o → o = some (.ok ()) → False := by
    intro o ho hs
    rw [hres] at ho
    rw [← ho] at hs
    cases hs
  have hsub : ∀ a, a ∈ w.answered ++ (oks rest ++ w.pending) →
      a ∈ w.answered ++ (oks w.channel ++ w.pending) := by
    intro a ha
    rw [hoks]
    simp only [List.mem_append] at ha ⊢
    tauto
  have hnodup : (w.answered ++ (oks rest ++ w.pending)).Nodup := by
    refine h.nodup.sublist (List.Sublist.append_left ?_ _)
    refine List.Sublist.append_right ?_ _
    rw [hoks]
    exact List.sublist_append_right ..
  cases r with
  | ok =>
    rw [if_pos rfl] at hoks
    have hans : PutInv media i bytes { w with
        channel := rest
        outstanding := w.outstanding - 1
        answered := w.answered ++ [m] } := by
      have hmem : ∀ a, a ∈ (w.answered ++ [m]) ++ (oks rest ++ w.pending) ↔
          a ∈ w.answered ++ (oks w.channel ++ w.pending) := by
        intro a
        rw [hoks]
        simp only [List.mem_append]
        tauto
      refine ⟨?_, fun hh hin => h.unhedged hh ((hmem _).mp hin), ?_, ?_, fun hr => (hnone rfl hr).elim⟩
      · have heq : (w.answered ++ [m]) ++ (oks rest ++ w.pending)
            = w.answered ++ (oks w.channel ++ w.pending) := by
          rw [hoks]
          simp only [List.append_assoc]
        exact heq ▸ h.nodup
      · intro a ha
        rcases List.mem_append.mp ha with ha | ha
        · exact h.answered a ha
        · rw [List.mem_singleton] at ha
          refine h.sent a ?_
          rw [hoks, ha]
          exact List.mem_append_left _ (List.mem_singleton.mpr rfl)
      · intro a ha
        refine h.sent a ?_
        rw [hoks]
        exact List.mem_append_right _ ha
    unfold QuorumPut.receive
    dsimp only
    split
    · rename_i htwo
      exact ⟨hans.nodup, hans.unhedged, hans.answered, hans.sent, fun _ => htwo⟩
    · exact hans.settle
  | alreadyExists =>
    refine ⟨hnodup, fun hh hin => h.unhedged hh (hsub _ hin), h.answered, ?_, fun hr => nomatch hr⟩
    intro a ha
    refine h.sent a ?_
    rw [hoks]
    exact List.mem_append_right _ ha
  | io =>
    have hio : PutInv media i bytes { w with
        channel := rest
        outstanding := w.outstanding - 1
        firstErr := true } := by
      refine ⟨hnodup, fun hh hin => h.unhedged hh (hsub _ hin), h.answered, ?_, h.two⟩
      intro a ha
      refine h.sent a ?_
      rw [hoks]
      exact List.mem_append_right _ ha
    unfold QuorumPut.receive
    dsimp only
    split
    · exact hio.settle
    · rename_i hh
      exact hio.launch (by simpa using hh)

/-! ## The sealers -/

/-- The media a sealer has behind it. -/
def triedBefore : Medium → List Medium
  | .az1 => []
  | .az2 => [.az1]
  | .standard => [.az1, .az2]

/-- What a sealer knows: the media it won are distinct and hold its seal. -/
structure SealInv (media : Medium → Option (B × Nat)) (i : Nat) (bytes : B) (w : Sealing) :
    Prop where
  nodup : w.won.Nodup
  owned : ∀ m ∈ w.won, media m = some (bytes, i)
  tried : w.result = none → ∀ m ∈ w.won, m ∈ triedBefore w.next
  tie : w.result = none → w.next = .standard → w.won.length = 1
  two : w.result = some (.ok .sealed) → 2 ≤ w.won.length

theorem SealInv.mono {w : Sealing} (h : SealInv media i bytes w)
    (hk : ∀ m x, media m = some x → media' m = some x) : SealInv media' i bytes w :=
  ⟨h.nodup, fun m hm => hk m _ (h.owned m hm), h.tried, h.tie, h.two⟩

theorem SealInv.new (media : Medium → Option (B × Nat)) (i : Nat) (bytes : B) :
    SealInv media i bytes .new :=
  ⟨List.nodup_nil, (fun _ hm => nomatch hm), (fun _ _ hm => nomatch hm), (fun _ h => nomatch h),
    (fun h => nomatch h)⟩

theorem SealInv.answer {w : Sealing} (h : SealInv media i bytes w) (hres : w.result = none)
    (hr : r = .ok → media w.next = some (bytes, i)) : SealInv media i bytes (w.answer r) := by
  have hnot : w.next ∉ w.won := by
    intro hin
    have hmem := h.tried hres w.next hin
    cases hn : w.next <;> rw [hn] at hmem <;> simp [triedBefore] at hmem
  -- what it has won after an answer that is not an error
  let won := if r = .ok then w.won ++ [w.next] else w.won
  have hnodup : won.Nodup := by
    show (if r = .ok then w.won ++ [w.next] else w.won).Nodup
    split
    · refine List.nodup_append.mpr ⟨h.nodup, List.nodup_singleton _, ?_⟩
      rintro a ha b hb rfl
      rw [List.mem_singleton] at hb
      exact hnot (hb ▸ ha)
    · exact h.nodup
  have howned : ∀ m ∈ won, media m = some (bytes, i) := by
    intro m hm
    have hm : m ∈ (if r = .ok then w.won ++ [w.next] else w.won) := hm
    split at hm
    · rename_i hok
      rcases List.mem_append.mp hm with hm | hm
      · exact h.owned m hm
      · rw [List.mem_singleton] at hm
        rw [hm]
        exact hr hok
    · exact h.owned m hm
  have htried : ∀ m ∈ won, m ∈ triedBefore w.next ++ [w.next] := by
    intro m hm
    have hm : m ∈ (if r = .ok then w.won ++ [w.next] else w.won) := hm
    split at hm
    · rcases List.mem_append.mp hm with hm | hm
      · exact List.mem_append_left _ (h.tried hres m hm)
      · exact List.mem_append_right _ hm
    · exact List.mem_append_left _ (h.tried hres m hm)
  by_cases hio : r = .io
  · subst hio
    exact ⟨h.nodup, h.owned, (fun hn => nomatch hn), (fun hn => nomatch hn), (fun hn => nomatch hn)⟩
  · have hform : w.answer r = match w.next with
        | .az1 => { w with next := .az2, won := won }
        | .az2 =>
          if won.length = 2 then { w with won := won, result := some (.ok .sealed) }
          else if won.length = 1 then { w with next := .standard, won := won }
          else { w with won := won, result := some (.ok .occupied) }
        | .standard => { w with
            won := won
            result := some (.ok (if r = .ok then .sealed else .occupied)) } := by
      cases r with
      | ok => rfl
      | alreadyExists => rfl
      | io => exact absurd rfl hio
    rw [hform]
    cases hn : w.next with
    | az1 =>
      rw [hn] at htried
      refine ⟨hnodup, howned, fun _ => htried, (fun _ h => nomatch h), ?_⟩
      intro hr
      rw [show ({ w with next := Medium.az2, won := won } : Sealing).result = w.result from rfl,
        hres] at hr
      cases hr
    | az2 =>
      rw [hn] at htried
      dsimp only
      split
      · rename_i htwo
        exact ⟨hnodup, howned, (fun hn => nomatch hn), (fun hn => nomatch hn), fun _ => Nat.le_of_eq htwo.symm⟩
      · split
        · rename_i hone
          refine ⟨hnodup, howned, fun _ => htried, fun _ _ => hone, ?_⟩
          intro hr
          rw [show ({ w with next := Medium.standard, won := won } : Sealing).result = w.result
            from rfl, hres] at hr
          cases hr
        · exact ⟨hnodup, howned, (fun hn => nomatch hn), (fun hn => nomatch hn),
            (fun hr => nomatch hr)⟩
    | standard =>
      refine ⟨hnodup, howned, (fun hn => nomatch hn), (fun hn => nomatch hn), ?_⟩
      intro hsealed
      have hok : r = .ok := by
        by_contra hne
        simp [hne] at hsealed
      have hone := h.tie hres hn
      show 2 ≤ won.length
      have hwon : won = w.won ++ [w.next] := if_pos hok
      rw [hwon, List.length_append, hone]
      exact Nat.le_refl 2

/-! ## Runs -/

/-- Every caller knows what it says. -/
def Inv (s : DualMedia B) : Prop :=
  ∀ i, match s.calls i with
    | .idle => True
    | .put bytes w => PutInv s.media i bytes w
    | .seal bytes w => SealInv s.media i bytes w

theorem Inv.update (h : Inv s)
    (hk : ∀ m x, s.media m = some x → media' m = some x) {call : DualCall B}
    (hcall : match call with
      | .idle => True
      | .put bytes w => PutInv media' i bytes w
      | .seal bytes w => SealInv media' i bytes w) :
    Inv ⟨media', Function.update s.calls i call⟩ := by
  intro j
  show match Function.update s.calls i call j with
    | .idle => True
    | .put bytes w => PutInv media' j bytes w
    | .seal bytes w => SealInv media' j bytes w
  by_cases hj : j = i
  · subst hj
    rw [Function.update_self]
    exact hcall
  · rw [Function.update_of_ne hj]
    have hold := h j
    cases hc : s.calls j with
    | idle => trivial
    | put bytes w =>
      rw [hc] at hold
      exact hold.mono hk
    | «seal» bytes w =>
      rw [hc] at hold
      exact hold.mono hk

theorem Inv.put (h : Inv s) (hi : s.calls i = .put bytes w) : PutInv s.media i bytes w := by
  have := h i
  rw [hi] at this
  exact this

theorem Inv.seal (h : Inv s) {w : Sealing}
    (hi : s.calls i = .seal bytes w) : SealInv s.media i bytes w := by
  have := h i
  rw [hi] at this
  exact this

theorem next_inv {l : Nat × DualStep B} (h : Inv s) (hn : next s l = some s') : Inv s' := by
  obtain ⟨i, step⟩ := l
  have hid : ∀ m x, s.media m = some x → s.media m = some x := fun _ _ h => h
  cases step with
  | put bytes =>
    rw [next] at hn
    split at hn <;> cases hn
    exact h.update hid (PutInv.new s.media i bytes)
  | «seal» bytes =>
    rw [next] at hn
    split at hn <;> cases hn
    exact h.update hid (SealInv.new s.media i bytes)
  | land m wire =>
    rw [next] at hn
    split at hn
    · rename_i bytes w hi
      split at hn
      · rename_i hm
        cases hn
        have hk : ∀ m' x, s.media m' = some x → (s.putIfAbsent i m bytes wire).1 m' = some x :=
          fun _ _ => putIfAbsent_keeps
        exact h.update hk (((h.put hi).mono hk).send hm putIfAbsent_ok)
      · cases hn
    · cases hn
  | receive =>
    rw [next] at hn
    split at hn
    · rename_i bytes w hi
      split at hn
      · rename_i m r rest hres hch
        cases hn
        exact h.update hid ((h.put hi).receive hch hres)
      · cases hn
    · cases hn
  | timeout =>
    rw [next] at hn
    split at hn
    · rename_i bytes w hi
      split at hn
      · rename_i hh
        cases hn
        exact h.update hid ((h.put hi).launch hh.2)
      · cases hn
    · cases hn
  | «try» wire =>
    rw [next] at hn
    split at hn
    · rename_i bytes w hi
      split at hn
      · rename_i hres
        cases hn
        have hk : ∀ m' x, s.media m' = some x →
            (s.putIfAbsent i w.next bytes wire).1 m' = some x := fun _ _ => putIfAbsent_keeps
        exact h.update hk
          (((h.seal hi).mono hk).answer (Option.isNone_iff_eq_none.mp hres) putIfAbsent_ok)
      · cases hn
    · cases hn
  | stop =>
    rw [next] at hn
    split at hn
    · rename_i bytes w hi
      split at hn <;> cases hn
      have hw := h.put hi
      exact h.update hid ⟨hw.nodup, hw.unhedged, hw.answered, hw.sent, (fun hr => nomatch hr)⟩
    · rename_i bytes w hi
      split at hn <;> cases hn
      have hw := h.seal hi
      exact h.update hid ⟨hw.nodup, hw.owned, (fun hr => nomatch hr), (fun hr => nomatch hr),
        (fun hr => nomatch hr)⟩
    · cases hn

/-- Two media hold an object of caller `i`. -/
def Owns (s : DualMedia B) (i : Nat) (bytes : B) : Prop :=
  ∃ m m', m ≠ m' ∧ s.media m = some (bytes, i) ∧ s.media m' = some (bytes, i)

theorem owns_of_list {ms : List Medium} (hn : ms.Nodup)
    (h : ∀ m ∈ ms, s.media m = some (bytes, i)) (htwo : 2 ≤ ms.length) : Owns s i bytes := by
  match ms, hn, h, htwo with
  | m :: m' :: rest, hn, h, _ =>
    refine ⟨m, m', ?_, h m List.mem_cons_self,
      h m' (.tail _ List.mem_cons_self)⟩
    rintro rfl
    exact (List.nodup_cons.mp hn).1 List.mem_cons_self

theorem Succeeded.owns (hinv : Inv s) (h : Succeeded s i bytes) : Owns s i bytes := by
  rcases h with ⟨w, hi, hr⟩ | ⟨w, hi, hr⟩
  · have hw := hinv.put hi
    exact owns_of_list (List.nodup_append.mp hw.nodup).1 hw.answered (hw.two hr)
  · have hw := hinv.seal hi
    exact owns_of_list hw.nodup hw.owned (hw.two hr)

/-- Two pairs of three media meet. -/
theorem pairs_meet {a b d e : Medium} (hab : a ≠ b) (hde : d ≠ e) :
    a = d ∨ a = e ∨ b = d ∨ b = e := by
  cases a <;> cases b <;> cases d <;> cases e <;> simp_all

theorem Owns.unique {j : Nat} {x y : B} (hi : Owns s i x) (hj : Owns s j y) : i = j ∧ x = y := by
  obtain ⟨a, b, hab, ha, hb⟩ := hi
  obtain ⟨d, e, hde, hd, he⟩ := hj
  have same : ∀ {m : Medium}, s.media m = some (x, i) → s.media m = some (y, j) → i = j ∧ x = y := by
    intro m h h'
    rw [h] at h'
    cases h'
    exact ⟨rfl, rfl⟩
  rcases pairs_meet hab hde with rfl | rfl | rfl | rfl
  · exact same ha hd
  · exact same ha he
  · exact same hb hd
  · exact same hb he

/-- A fetch that finds an object on two media returns it, whatever the third
one holds. -/
theorem fetchOf_two [DecidableEq B] {read : Medium → Option B} {x : B} {m' : Medium}
    (hne : m ≠ m') (h : read m = some x) (h' : read m' = some x) :
    fetchOf (read .az1) (read .az2) (read .standard) = some x := by
  unfold fetchOf
  cases m <;> cases m' <;> first | exact absurd rfl hne | skip
  all_goals
    rw [h, h']
    cases read .az1 <;> cases read .az2 <;> cases read .standard <;> simp_all

/-- Whatever writers and sealers do at one seq: two that report success are
one call, so their bytes agree, and a fetch that starts after it, reading
the media one after the other next to everybody, returns its bytes. -/
theorem dual_media_agree [DecidableEq B] {ls : List (Nat × DualStep B)} {s : DualMedia B}
    (hr : run next empty ls = some s) {i : Nat} {x : B} (hi : Succeeded s i x) :
    (∀ j y, Succeeded s j y → y = x)
      ∧ ∀ ls₁ ls₂ ls₃ s₁ s₂ s₃, run next s ls₁ = some s₁ → run next s₁ ls₂ = some s₂ →
          run next s₂ ls₃ = some s₃ →
          fetchOf (s₁.bytesAt .az1) (s₂.bytesAt .az2) (s₃.bytesAt .standard) = some x := by
  have hempty : Inv (empty : DualMedia B) := fun _ => trivial
  have hstep : ∀ (s : DualMedia B) l s', Inv s → next s l = some s' → Inv s' :=
    fun s l s' h hn => next_inv h hn
  have hinv : Inv s := run_invariant hstep hempty hr
  have hown := hi.owns hinv
  constructor
  · intro j y hj
    exact ((hj.owns hinv).unique hown).2
  · intro ls₁ ls₂ ls₃ s₁ s₂ s₃ h₁ h₂ h₃
    obtain ⟨m, m', hne, hm, hm'⟩ := hown
    -- what each medium is read to hold, at the time it is read
    let read : Medium → Option B := fun
      | .az1 => s₁.bytesAt .az1
      | .az2 => s₂.bytesAt .az2
      | .standard => s₃.bytesAt .standard
    have hread : ∀ m, s.media m = some (x, i) → read m = some x := by
      intro m hm
      have hm₁ := run_keeps h₁ hm
      have hm₂ := run_keeps h₂ hm₁
      have hm₃ := run_keeps h₃ hm₂
      cases m with
      | az1 => exact congrArg (Option.map Prod.fst) hm₁
      | az2 => exact congrArg (Option.map Prod.fst) hm₂
      | standard => exact congrArg (Option.map Prod.fst) hm₃
    exact fetchOf_two hne (hread m hm) (hread m' hm')

/-- A writer gets the first express bucket and a sealer the second; the
writer's put there is lost, and it is the first at the standard bucket. -/
def contested : List (Nat × DualStep Nat) :=
  [(0, .put 7), (1, .seal 9), (0, .land .az1 .answered), (1, .try .answered),
    (0, .land .az2 .dropped), (0, .receive), (1, .try .answered), (0, .receive),
    (0, .land .standard .answered), (0, .receive)]

/-- The sealer goes on while the media are read, and finds the seq taken. -/
theorem dual_media_agree_contested :
    ∃ s s' : DualMedia Nat, run next empty contested = some s
      ∧ run next s [(1, .try .answered)] = some s'
      ∧ s.bytesAt .az2 = some 9
      ∧ (∃ w, s'.calls 1 = .seal 9 w ∧ w.result = some (.ok .occupied))
      ∧ (∀ j y, Succeeded s j y → y = 7)
      ∧ fetchOf (s.bytesAt .az1) (s'.bytesAt .az2) (s'.bytesAt .standard) = some 7 := by
  have hrun : ∃ s : DualMedia Nat, run next empty contested = some s ∧ Succeeded s 0 7
      ∧ s.bytesAt .az2 = some 9
      ∧ ∃ s', run next s [(1, .try .answered)] = some s'
        ∧ ∃ w, s'.calls 1 = .seal 9 w ∧ w.result = some (.ok .occupied) :=
    ⟨_, rfl, .inl ⟨_, rfl, rfl⟩, rfl, _, rfl, _, rfl, rfl⟩
  obtain ⟨s, hr, hs, hother, s', hr', hsealer⟩ := hrun
  obtain ⟨hsame, hfetch⟩ := dual_media_agree hr hs
  exact ⟨s, s', hr, hr', hother, hsealer, hsame, hfetch [] _ [] s s' s' rfl hr' rfl⟩

end DualMedia

end Zou
