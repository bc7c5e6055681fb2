import Zou.LeaseSafety

/-!
# The wait of a takeover

`takeover_with` does not count its passes: it sleeps through every lease
that ends before its deadline, however often the holder renews, and it
reads through lost races. What bounds it is its clock. A lease somebody
else holds at a reading past the deadline ends past the deadline too, so
such a pass answers `Held` or asks for a swap, and a swap that loses is
counted. `Waits` says this of a thread inside the call, against the labels
of the run since it began. How long a pass sleeps decides nothing here.
-/

namespace Zou

variable {V : Type} {content : V → Manifest}

/-! ## What the labels say of a thread -/

/-- What `t` read off its clock. -/
def Label.reading (t : Nat) : Label V → Option Nat
  | .clock u now => if u = t then some now else none
  | _ => none

def Label.isPut (t : Nat) : Label V → Bool
  | .put u _ => u = t
  | _ => false

/-- The clock readings of `t`, oldest first. -/
def readings (t : Nat) (ls : List (Label V)) : List Nat := ls.filterMap (Label.reading t)

/-- The readings of `t` at or past `deadline`. -/
def lateReadings (t deadline : Nat) (ls : List (Label V)) : Nat :=
  (readings t ls).countP (deadline ≤ ·)

/-- The swaps `t` asked for. -/
def swaps (t : Nat) (ls : List (Label V)) : Nat := ls.countP (Label.isPut t)

/-- The steps `t` took. -/
def ownSteps (t : Nat) (ls : List (Label V)) : Nat := ls.countP fun l => l.thread = some t

section Counts

variable {t deadline now : Nat} {ls : List (Label V)}

theorem readings_snoc (l : Label V) :
    readings t (ls ++ [l]) = readings t ls ++ (l.reading t).toList := by
  unfold readings
  rw [List.filterMap_append]
  cases h : l.reading t with
  | none => simp [h]
  | some r => simp [h]

theorem lateReadings_snoc (l : Label V) : lateReadings t deadline (ls ++ [l])
      = lateReadings t deadline ls + if (l.reading t).any (deadline ≤ ·) then 1 else 0 := by
  unfold lateReadings
  rw [readings_snoc, List.countP_append]
  cases l.reading t with
  | none => simp
  | some r => simp [List.countP_cons]

theorem swaps_snoc (l : Label V) :
    swaps t (ls ++ [l]) = swaps t ls + if l.isPut t then 1 else 0 := by
  simp [swaps, List.countP_append, List.countP_cons]

theorem ownSteps_snoc (l : Label V) :
    ownSteps t (ls ++ [l]) = ownSteps t ls + if l.thread = some t then 1 else 0 := by
  simp [ownSteps, List.countP_append, List.countP_cons]

theorem Label.reading_of_thread {l : Label V} (h : l.thread ≠ some t) : l.reading t = none := by
  cases l with
  | clock u now => exact if_neg fun hu => h (congrArg some hu)
  | _ => rfl

theorem Label.isPut_of_thread {l : Label V} (h : l.thread ≠ some t) : l.isPut t = false := by
  cases l with
  | put u io => exact decide_eq_false fun hu => h (congrArg some hu)
  | _ => rfl

end Counts

/-! ## The invariant -/

/-- What a call of `takeover_with` that `t` is inside has done so far: the
labels are those since it began. -/
def Waits (t : Nat) (holder : String) (deadline : Nat) (ls : List (Label V)) : Pc V → Prop
  | .clock w => w.holder = holder ∧ w.deadline = deadline ∧ w.lostRaces ≤ races
      ∧ swaps t ls = w.lostRaces ∧ lateReadings t deadline ls ≤ w.lostRaces
      ∧ ownSteps t ls ≤ 3 * (readings t ls).length
  | .takeGet a (some w) => w.holder = holder ∧ w.deadline = deadline ∧ w.lostRaces ≤ races
      ∧ a.holder = holder ∧ a.force = false ∧ (readings t ls).getLast? = some a.nowUnix
      ∧ swaps t ls = w.lostRaces
      ∧ lateReadings t deadline ls ≤ w.lostRaces + (if deadline ≤ a.nowUnix then 1 else 0)
      ∧ ownSteps t ls + 2 ≤ 3 * (readings t ls).length
  | .takeSwap a (some w) m _ => w.holder = holder ∧ w.deadline = deadline ∧ w.lostRaces ≤ races
      ∧ a.holder = holder ∧ a.force = false ∧ (readings t ls).getLast? = some a.nowUnix
      ∧ a.refusal m = none ∧ swaps t ls = w.lostRaces
      ∧ lateReadings t deadline ls ≤ w.lostRaces + 1
      ∧ ownSteps t ls + 1 ≤ 3 * (readings t ls).length
  | .done _ => lateReadings t deadline ls ≤ races + 1 ∧ swaps t ls ≤ races + 1
      ∧ ownSteps t ls ≤ 3 * (readings t ls).length
  | _ => False

variable {ls : List (Label V)}

theorem Waits.other {t deadline : Nat} {holder : String} {l : Label V}
    {pc : Pc V} (h : Waits t holder deadline ls pc) (hl : l.thread ≠ some t) :
    Waits t holder deadline (ls ++ [l]) pc := by
  have hr : readings t (ls ++ [l]) = readings t ls := by
    rw [readings_snoc, Label.reading_of_thread hl, Option.toList_none, List.append_nil]
  have hlate : lateReadings t deadline (ls ++ [l]) = lateReadings t deadline ls := by
    unfold lateReadings
    rw [hr]
  have hswaps : swaps t (ls ++ [l]) = swaps t ls := by
    rw [swaps_snoc, Label.isPut_of_thread hl]
    rfl
  have hown : ownSteps t (ls ++ [l]) = ownSteps t ls := by
    rw [ownSteps_snoc, if_neg hl, Nat.add_zero]
  revert h
  unfold Waits
  rw [hr, hlate, hswaps, hown]
  exact id

theorem Waits.bounds {t deadline : Nat} {holder : String} {pc : Pc V}
    (h : Waits t holder deadline ls pc) :
    lateReadings t deadline ls ≤ races + 1 ∧ swaps t ls ≤ races + 1
      ∧ ownSteps t ls ≤ 3 * (readings t ls).length := by
  cases pc with
  | clock w =>
    obtain ⟨-, -, hraces, hswaps, hlate, hown⟩ := h
    exact ⟨by omega, by omega, hown⟩
  | takeGet a w =>
    cases w with
    | none => exact h.elim
    | some w =>
      obtain ⟨-, -, hraces, -, -, -, hswaps, hlate, hown⟩ := h
      refine ⟨?_, by omega, by omega⟩
      split at hlate <;> omega
  | takeSwap a w m v =>
    cases w with
    | none => exact h.elim
    | some w =>
      obtain ⟨-, -, hraces, -, -, -, -, hswaps, hlate, hown⟩ := h
      exact ⟨by omega, by omega, by omega⟩
  | done r => exact h
  | _ => exact h.elim

/-- Where the clock has reached the deadline by its `n`th reading, the
readings are `n` and the late ones at most. -/
theorem length_le_of_reached {t deadline n : Nat} {clock : Nat → Nat}
    (hclock : ∀ k, n ≤ k → deadline ≤ clock k)
    (hreads : ∀ k r, (readings t ls)[k]? = some r → r = clock k) :
    (readings t ls).length ≤ n + lateReadings t deadline ls := by
  have hlate : ((readings t ls).drop n).countP (deadline ≤ ·) = ((readings t ls).drop n).length := by
    refine List.countP_eq_length.mpr fun r hr => ?_
    obtain ⟨k, hk⟩ := List.mem_iff_getElem?.mp hr
    rw [List.getElem?_drop] at hk
    rw [hreads _ _ hk]
    exact decide_eq_true (hclock _ (Nat.le_add_right ..))
  have hsub := (List.drop_sublist n (readings t ls)).countP_le (p := (deadline ≤ ·))
  rw [hlate, List.length_drop] at hsub
  unfold lateReadings
  omega

namespace TakeArgs

variable {a : TakeArgs} {m : Manifest}

/-- A take that does not force its way is let through where nobody else
holds a lease its clock has not seen the end of. -/
theorem refusal_none (hf : a.force = false) (h : a.refusal m = none) :
    ∀ l, m.lease = some l → l.expiresUnix ≤ a.nowUnix ∨ l.holder = a.holder := by
  intro l hl
  unfold refusal at h
  rw [hf, if_neg (by decide), hl] at h
  dsimp only at h
  split at h
  · assumption
  · split at h <;> cases h

theorem refusal_held {holder : String} {expires : Nat}
    (h : a.refusal m = some (.held holder expires)) : a.nowUnix < expires := by
  unfold refusal at h
  split at h
  · cases h
  · split at h
    · cases h
    · dsimp only at h
      split at h
      · cases h
      · rename_i hlive
        split at h
        · cases h
        · cases h
          omega

theorem refusal_ne_raced : a.refusal m ≠ some .raced := by
  intro h
  unfold refusal at h
  split at h
  · cases h
  · split at h
    · cases h
    · dsimp only at h
      split at h
      · cases h
      · split at h <;> cases h

end TakeArgs

namespace Sys

section Step

variable {t deadline : Nat} {holder : String} {ls : List (Label V)}

theorem waits_refused {a : TakeArgs} {w : Wait} {e : LeaseError}
    (h : Waits t holder deadline ls (.takeGet a (some w) : Pc V)) (io : Bool)
    (he : ∀ whose expires, e = .held whose expires → a.nowUnix < expires) (hr : e ≠ .raced) :
    Waits t holder deadline (ls ++ [.get t io]) (takeFailed (some w) e : Pc V) := by
  obtain ⟨hh, hd, hraces, -, -, -, hswaps, hlate, hown⟩ := h
  have hcounts : lateReadings t deadline (ls ++ [.get t io]) = lateReadings t deadline ls
      ∧ swaps t (ls ++ [.get t io]) = swaps t ls
      ∧ ownSteps t (ls ++ [.get t io]) = ownSteps t ls + 1
      ∧ readings t (ls ++ [.get t io]) = readings t ls := by
    refine ⟨?_, ?_, ?_, ?_⟩
    · simp [lateReadings_snoc, Label.reading]
    · simp [swaps_snoc, Label.isPut]
    · simp [ownSteps_snoc, Label.thread]
    · simp [readings_snoc, Label.reading]
  obtain ⟨hl', hs', ho', hr'⟩ := hcounts
  have hdone : ∀ r, Waits t holder deadline (ls ++ [.get t io]) (.done r : Pc V) := by
    intro r
    dsimp only [Waits]
    rw [hl', hs', ho', hr']
    refine ⟨?_, by omega, by omega⟩
    split at hlate <;> omega
  unfold takeFailed
  split
  · rename_i w' whose expires hw
    split
    · exact hdone _
    · rename_i hlt
      cases hw
      have hearly := he whose expires rfl
      rw [if_neg (by omega)] at hlate
      dsimp only [Waits]
      rw [hl', hs', ho', hr']
      exact ⟨hh, hd, hraces, hswaps, by omega, by omega⟩
  · exact absurd rfl hr
  · exact hdone _

variable {s : Sys V}

theorem waits_get {io : Bool} {pc' : Pc V}
    (h : Waits t holder deadline ls (s.pcs t)) (hget : afterGet s.cell (s.pcs t) = some pc') :
    Waits t holder deadline (ls ++ [.get t io]) pc' := by
  revert h hget
  cases s.pcs t with
  | takeGet a w =>
    intro h hget
    cases w with
    | none => exact h.elim
    | some w =>
      cases hget
      split
      · exact waits_refused h io nofun (by simp)
      · split
        · exact waits_refused h io nofun (by simp)
        · rename_i m _
          cases hrefusal : a.refusal m with
          | some e =>
            refine waits_refused h io (fun whose expires he => ?_) fun he => ?_
            · subst he
              exact TakeArgs.refusal_held hrefusal
            · subst he
              exact TakeArgs.refusal_ne_raced hrefusal
          | none =>
            obtain ⟨hh, hd, hraces, ha, hf, hlast, hswaps, hlate, hown⟩ := h
            dsimp only [Waits]
            rw [readings_snoc, lateReadings_snoc, swaps_snoc, ownSteps_snoc]
            refine ⟨hh, hd, hraces, ha, hf, ?_, hrefusal, ?_, ?_, ?_⟩
            · simpa [Label.reading] using hlast
            · simpa [Label.isPut] using hswaps
            · simp only [Label.reading, Option.any_none]
              split at hlate <;> simp only [Bool.false_eq_true, if_false] <;> omega
            · simp only [Label.thread, Label.reading, if_pos, Option.toList_none,
                List.append_nil]
              omega
  | reread i hl op => exact fun h => h.elim
  | _ => exact nofun

theorem waits_get_fail {io : Bool} {pc' : Pc V}
    (h : Waits t holder deadline ls (s.pcs t)) (hget : afterGet s.cell (s.pcs t) = some pc') :
    Waits t holder deadline (ls ++ [.get t io]) (.done (.error .store) : Pc V) := by
  revert h hget
  cases s.pcs t with
  | takeGet a w =>
    intro h _
    cases w with
    | none => exact h.elim
    | some w => exact waits_refused (e := .store) h io nofun (by simp)
  | reread i hl op => exact fun h => h.elim
  | _ => exact nofun

variable {s' : Sys V}

theorem waits_put [DecidableEq V] {io : Cell.Io V} (hi : Inv content s)
    (h : Waits t holder deadline ls (s.pcs t)) (hn : next content s (.put t io) = some s') :
    Waits t holder deadline (ls ++ [.put t io]) (s'.pcs t)
      ∧ (s'.cell ≠ s.cell → ∃ m v now, s.cell = some (m, v)
        ∧ (readings t ls).getLast? = some now
        ∧ ∀ l, m.lease = some l → l.expiresUnix ≤ now ∨ l.holder = holder) := by
  obtain ⟨m, v, hreq, hcases⟩ := next_put hi hn
  have hpin := hi.pcs t
  revert h hreq hcases hpin
  cases s.pcs t with
  | takeSwap a w m₀ v₀ =>
    intro h hreq hcases hpin
    cases w with
    | none => exact h.elim
    | some w =>
      obtain ⟨hh, hd, hraces, ha, hf, hlast, hrefusal, hswaps, hlate, hown⟩ := h
      cases hreq
      obtain rfl : content v = m₀ := hpin
      have hcounts : lateReadings t deadline (ls ++ [.put t io]) = lateReadings t deadline ls
          ∧ swaps t (ls ++ [.put t io]) = swaps t ls + 1
          ∧ ownSteps t (ls ++ [.put t io]) = ownSteps t ls + 1
          ∧ readings t (ls ++ [.put t io]) = readings t ls := by
        refine ⟨?_, ?_, ?_, ?_⟩
        · simp [lateReadings_snoc, Label.reading]
        · simp [swaps_snoc, Label.isPut]
        · simp [ownSteps_snoc, Label.thread]
        · simp [readings_snoc, Label.reading]
      obtain ⟨hl', hs', ho', hr'⟩ := hcounts
      have hdone : ∀ r, Waits t holder deadline (ls ++ [.put t io]) (.done r : Pc V) := by
        intro r
        dsimp only [Waits]
        rw [hl', hs', ho', hr']
        exact ⟨by omega, by omega, by omega⟩
      refine ⟨?_, fun hne => ?_⟩
      · rcases hcases with ⟨-, tok, -, rfl | rfl⟩ | ⟨e, rfl | rfl, rfl⟩
        · exact (goto_pcs_self _ t _).symm ▸ hdone _
        · exact (goto_pcs_self _ t _).symm ▸ hdone _
        · rw [goto_pcs_self]
          dsimp only [swapFailed, takeFailed]
          split
          · exact hdone _
          · dsimp only [Waits]
            rw [hl', hs', ho', hr']
            exact ⟨hh, hd, by omega, by omega, hlate, by omega⟩
        · exact (goto_pcs_self _ t _).symm ▸ hdone _
      · rcases hcases with ⟨hcell, -⟩ | ⟨e, -, rfl⟩
        · refine ⟨_, _, _, hcell, hlast, fun l hl => ?_⟩
          rw [← ha]
          exact TakeArgs.refusal_none hf hrefusal l hl
        · exact absurd rfl hne
  | renewSwap i hl ttl now => exact fun h => h.elim
  | swap i hl op m₀ v₀ => exact fun h => h.elim
  | _ => exact nofun

/-- The step lemma. Another thread's step moves nothing of the call, and
the call's own steps are a reading, a read and a swap in turn. -/
theorem waits_next [DecidableEq V] {l : Label V} (hi : Inv content s)
    (h : Waits t holder deadline ls (s.pcs t)) (hb : ∀ c, l ≠ .begin t c)
    (hn : next content s l = some s') : Waits t holder deadline (ls ++ [l]) (s'.pcs t) := by
  by_cases hl : l.thread = some t
  · cases l with
    | begin u c =>
      cases hl
      exact absurd rfl (hb c)
    | clock u now =>
      cases hl
      simp only [next] at hn
      split at hn
      · rename_i w heq
        cases hn
        rw [heq] at h
        obtain ⟨hh, hd, hraces, hswaps, hlate, hown⟩ := h
        rw [goto_pcs_self]
        dsimp only [Waits]
        rw [readings_snoc, lateReadings_snoc, swaps_snoc, ownSteps_snoc]
        refine ⟨hh, hd, hraces, hh, rfl, ?_, ?_, ?_, ?_⟩
        · simp [Label.reading]
        · simpa [Label.isPut] using hswaps
        · simp only [Label.reading, if_pos, Option.any_some, decide_eq_true_eq]
          omega
        · simp only [Label.reading, Label.thread, if_pos, Option.toList_some, List.length_append,
            List.length_cons, List.length_nil]
          omega
      · cases hn
    | get u ok =>
      cases hl
      simp only [next] at hn
      split at hn
      · obtain ⟨pc, hpc, rfl⟩ := Option.map_eq_some_iff.mp hn
        rw [goto_pcs_self]
        exact waits_get h hpc
      · -- a read that fails ends the call
        obtain ⟨pc, hpc, rfl⟩ := Option.map_eq_some_iff.mp hn
        rw [goto_pcs_self]
        exact waits_get_fail h hpc
    | put u io =>
      cases hl
      exact (waits_put hi h hn).1
    | snapshot u ack =>
      cases hl
      simp only [next] at hn
      split at hn
      · rename_i heq
        rw [heq] at h
        exact h.elim
      · cases hn
    | clone i => cases hl
    | publish f tok => cases hl
  · rw [(next_frame hi hn).1 t hl]
    exact h.other hl

theorem waits_run [DecidableEq V] {ls : List (Label V)} (hi : Inv content s)
    (h : Waits t holder deadline ([] : List (Label V)) (s.pcs t)) (hb : ∀ c, Label.begin t c ∉ ls)
    (hr : Trace.run (next content) s ls = some s') : Waits t holder deadline ls (s'.pcs t) := by
  have hlog : Trace.run (Trace.logged (next content) fun _ l => [l]) (s, []) ls
      = some (s', ls) := by
    rw [Trace.run_labels, hr]
    rfl
  have hmeets : Trace.Meets (Trace.logged (next content) fun _ l => [l])
      (fun _ l => ∀ c, l ≠ .begin t c) (s, []) ls :=
    Trace.meets_of_forall fun l hl c he => hb c (he ▸ hl)
  have hstep : ∀ (p : Sys V × List (Label V)) l p',
      (Inv content p.1 ∧ Waits t holder deadline p.2 (p.1.pcs t)) → (∀ c, l ≠ .begin t c) →
      Trace.logged (next content) (fun _ l => [l]) p l = some p' →
      Inv content p'.1 ∧ Waits t holder deadline p'.2 (p'.1.pcs t) := by
    rintro ⟨s₁, log⟩ l p' ⟨hi₁, h₁⟩ hl hn
    obtain ⟨s₂, hn₂, rfl⟩ := Trace.logged_some hn
    exact ⟨inv_next hi₁ hn₂, waits_next hi₁ h₁ hl hn₂⟩
  exact (Trace.guarded_invariant hstep ⟨hi, h⟩ hmeets hlog).2

theorem waits_enabled [DecidableEq V] (h : Waits t holder deadline ls (s.pcs t)) :
    (∃ r, s.pcs t = .done r)
      ∨ ∃ l, l.thread = some t ∧ (∀ c, l ≠ .begin t c) ∧ (next content s l).isSome := by
  cases hpc : s.pcs t with
  | done r => exact .inl ⟨r, rfl⟩
  | clock w =>
    refine .inr ⟨.clock t 0, rfl, (fun _ h => by cases h), ?_⟩
    simp only [next, hpc, Option.isSome_some]
  | takeGet a w =>
    refine .inr ⟨.get t false, rfl, (fun _ h => by cases h), ?_⟩
    simp [next, hpc, afterGet]
  | takeSwap a w m v =>
    refine .inr ⟨.put t .fail, rfl, (fun _ h => by cases h), ?_⟩
    simp [next, hpc, request, Cell.putIfMatch]
  | _ =>
    rw [hpc] at h
    exact h.elim

end Step

/-! ## The call -/

/-- The wait of a takeover, among any other calls of any other nodes. It
reads its clock `races + 1` times at most once it is past the deadline and
asks for as many swaps at most, whatever its clock does in between, so a
clock that reaches the deadline at its `n`th reading ends it; until then
it can go on. A swap of it that lands replaces a manifest whose lease is
free, its own or ended at the reading it went by. -/
theorem takeover_waits [DecidableEq V] {s₀ s : Sys V} {ls₀ ls : List (Label V)} {t : Nat}
    {holder : String} {endpoint : Option String} {ttl limit now : Nat} (h0 : Init content s₀)
    (hr : Trace.run (next content) s₀
      (ls₀ ++ .begin t (.takeover holder endpoint ttl limit now) :: ls) = some s)
    (hb : ∀ c, Label.begin t c ∉ ls) :
    (∀ (clock : Nat → Nat) (n : Nat), (∀ k, n ≤ k → now + limit ≤ clock k) →
        (∀ k r, (readings t ls)[k]? = some r → r = clock k) →
        ownSteps t ls ≤ 3 * (n + races + 1))
      ∧ ((∃ r, s.pcs t = .done r)
        ∨ ∃ l, l.thread = some t ∧ (∀ c, l ≠ .begin t c) ∧ (next content s l).isSome)
      ∧ lateReadings t (now + limit) ls ≤ races + 1
      ∧ swaps t ls ≤ races + 1
      ∧ ∀ io s', next content s (.put t io) = some s' → s'.cell ≠ s.cell →
          ∃ m v r, s.cell = some (m, v) ∧ (readings t ls).getLast? = some r
            ∧ ∀ l, m.lease = some l → l.expiresUnix ≤ r ∨ l.holder = holder := by
  rw [Trace.run_append] at hr
  obtain ⟨s₁, hr₀, hr⟩ := Option.bind_eq_some_iff.mp hr
  obtain ⟨s₂, hbegin, hr⟩ := Trace.run_cons_some hr
  have hi₁ : Inv content s₁ := Trace.run_invariant (fun _ _ _ => inv_next) h0.inv hr₀
  have hi₂ : Inv content s₂ := inv_next hi₁ hbegin
  have hi : Inv content s := Trace.run_invariant (fun _ _ _ => inv_next) hi₂ hr
  have hstart : s₂.pcs t = .clock ⟨holder, endpoint, ttl, now + limit, 0⟩ := by
    simp only [next, start, Option.map_some] at hbegin
    split at hbegin
    · cases hbegin
      exact goto_pcs_self _ t _
    · cases hbegin
      exact goto_pcs_self _ t _
    · cases hbegin
  have h₂ : Waits t holder (now + limit) ([] : List (Label V)) (s₂.pcs t) := by
    rw [hstart]
    exact ⟨rfl, rfl, Nat.zero_le _, rfl, le_rfl, le_rfl⟩
  have h := waits_run hi₂ h₂ hb hr
  obtain ⟨hlate, hswaps, hown⟩ := h.bounds
  refine ⟨fun clock n hclock hreads => ?_, waits_enabled h, hlate, hswaps,
    fun io s' hn hne => (waits_put hi h hn).2 hne⟩
  have hcount := length_le_of_reached hclock hreads
  omega

/-- Bob waits for Alice's lease to end. -/
def waited : List (Label Manifest) :=
  let m₀ := alice.grant (Manifest.new "acme" 17)
  let bob : TakeArgs := ⟨"bob", none, 15, 115, false⟩
  [.clock 1 101, .get 1 true, .clock 1 115, .get 1 true, .put 1 (.reply (bob.grant m₀))]

/-- Bob's clock passes his deadline of 121 at its third reading. He is
refused at the first and takes the lease at the second. -/
theorem takeover_waits_waited :
    ∃ s, Trace.run (next id) (fresh (alice.grant (Manifest.new "acme" 17)))
        (.begin 1 (.takeover "bob" none 15 20 101) :: waited) = some s
      ∧ s.takes = [2] ∧ ownSteps 1 waited ≤ 3 * (2 + races + 1)
      ∧ lateReadings 1 121 waited ≤ races + 1 := by
  have h0 : Init id (fresh (alice.grant (Manifest.new "acme" 17))) :=
    ⟨fun m v h => by cases h; rfl, rfl, fun _ => rfl, rfl⟩
  have hr : Trace.run (next id) (fresh (alice.grant (Manifest.new "acme" 17)))
      ([] ++ .begin 1 (.takeover "bob" none 15 20 101) :: waited) = some _ := rfl
  have hb : ∀ c, Label.begin 1 c ∉ waited := by simp [waited]
  have hw := takeover_waits h0 hr hb
  refine ⟨_, hr, rfl, ?_, hw.2.2.1⟩
  refine hw.1 (fun k => 101 + 14 * k) 2 (fun k hk => by omega) fun k r hk => ?_
  have hreads : readings 1 waited = [101, 115] := rfl
  rw [hreads] at hk
  cases k with
  | zero => exact (Option.some.inj hk).symm
  | succ k =>
    cases k with
    | zero => exact (Option.some.inj hk).symm
    | succ k => cases hk

end Sys

end Zou
