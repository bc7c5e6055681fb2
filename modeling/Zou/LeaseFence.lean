import Zou.LeaseSafety

/-!
# The fence of an acquisition

`take` counts the fence up from the lease record it finds. A renewal, a
publish, an expiry and a steal leave that record in the manifest, but
`release` clears it, and the next acquisition starts again at one. The
fences of the acquisitions go up as long as no take lands over a record
that a release has cleared.
-/

namespace Zou

variable {V : Type} {content : V → Manifest}

/-- The put takes effect when its condition holds. -/
def lands : Cell.Io V → Bool
  | .fail => false
  | _ => true

/-- `m'` has no lease, or the one of `m` under the same fence. -/
def KeepsFence (m m' : Manifest) : Prop :=
  ∀ l', m'.lease = some l' → ∃ l, m.lease = some l ∧ l.fence = l'.fence

variable {m : Manifest}

theorem keepsFence_of_eq {m' : Manifest} (h : m'.lease = m.lease) : KeepsFence m m' :=
  fun l' hl => ⟨l', h ▸ hl, rfl⟩

theorem keepsFence_extendLease (ttl now : Nat) (m : Manifest) :
    KeepsFence m (extendLease ttl now m) := by
  intro l' hl
  obtain ⟨l, hm, rfl⟩ := Option.map_eq_some_iff.mp hl
  exact ⟨l, hm, rfl⟩

theorem updated_lease (f : Mutation) (now : Nat) (m : Manifest) :
    (updated f now m).lease = m.lease := by
  unfold updated
  split
  · exact f.lease_eq m
  · exact f.lease_eq m

theorem keepsFence_edit (op : Op) (m : Manifest) : KeepsFence m (op.edit m) := by
  cases op with
  | renew ttl now => exact keepsFence_extendLease ttl now m
  | release => intro l' hl; cases hl
  | update now f => exact keepsFence_of_eq (updated_lease f now m)

@[simp] theorem heldLease_fence (a : TakeArgs) (m : Manifest) (v : V) :
    (a.heldLease m v).fence = TakeArgs.fence m := rfl

theorem fence_pos (m : Manifest) : 0 < TakeArgs.fence m := Nat.succ_pos _

theorem fence_of_lease {l : Lease} (h : m.lease = some l) : TakeArgs.fence m = l.fence + 1 := by
  simp [TakeArgs.fence, h]

theorem fence_of_cleared (h : m.lease = none) : TakeArgs.fence m = 1 := by
  simp [TakeArgs.fence, h]

namespace Sys

variable [DecidableEq V]

/-- The handle a step's take returns: its swap lands and it hears so. -/
def acquires (s : Sys V) : Label V → List (HeldLease V)
  | .put t (.reply tok) =>
    match s.pcs t with
    | .takeSwap a _ m v => if s.cell.map Prod.snd = some v then [a.heldLease m tok] else []
    | _ => []
  | _ => []

/-- The protocol with the handles its takes returned beside it, oldest
first. -/
def nextAcquiring (content : V → Manifest) :
    Sys V × List (HeldLease V) → Label V → Option (Sys V × List (HeldLease V)) :=
  Trace.logged (next content) acquires

/-- After some acquisition a take lands over a manifest whose lease is
cleared. -/
def restarts (s : Sys V) : Label V → Bool
  | .put t io =>
    match s.pcs t with
    | .takeSwap _ _ m v =>
      lands io && decide (s.cell.map Prod.snd = some v) && m.lease.isNone && !s.takes.isEmpty
    | _ => false
  | _ => false

/-! ## What a step does to the record -/

/-- A step leaves the cell alone, writes a manifest that keeps the fence
or none, or is a take that lands. -/
inductive Moved (s s' : Sys V) (l : Label V) : Prop where
  | same (cell : s'.cell = s.cell) (none : acquires s l = []) (takes : s'.takes = s.takes)
  | kept (m m' : Manifest) (v tok : V) (before : s.cell = some (m, v))
      (after : s'.cell = some (m', tok)) (keeps : KeepsFence m m')
      (none : acquires s l = []) (takes : s'.takes = s.takes)
  | took (t : Nat) (io : Cell.Io V) (a : TakeArgs) (w : Option Wait) (m : Manifest) (v tok : V)
      (label : l = .put t io) (pc : s.pcs t = .takeSwap a w m v) (landed : lands io = true)
      (before : s.cell = some (m, v)) (after : s'.cell = some (a.grant m, tok))
      (heard : (acquires s l = [] ∧ s'.takes = s.takes)
        ∨ (acquires s l = [a.heldLease m tok] ∧ s'.takes = s.takes ++ [(a.grant m).epoch]))

variable {m : Manifest}

omit [DecidableEq V] in
theorem request_keepsFence {takes : List Nat} {pc : Pc V} {v : V}
    (hpc : PcOk content takes pc) (h : request pc = some (m, v)) :
    (∃ a w, pc = .takeSwap a w (content v) v ∧ m = a.grant (content v))
      ∨ ((∀ a w m₀ v₀, pc ≠ .takeSwap a w m₀ v₀) ∧ KeepsFence (content v) m) := by
  cases pc with
  | takeSwap a w m₀ v₀ =>
    cases h
    obtain rfl : content v = m₀ := hpc
    exact .inl ⟨a, w, rfl, rfl⟩
  | renewSwap i hl ttl now =>
    cases h
    refine .inr ⟨fun _ _ _ _ hno => (by cases hno), ?_⟩
    rw [hpc.pinned]
    exact keepsFence_extendLease ttl now _
  | swap i hl op m₀ v₀ =>
    cases h
    refine .inr ⟨fun _ _ _ _ hno => (by cases hno), ?_⟩
    rw [hpc.2.1]
    exact keepsFence_edit op m₀
  | _ => cases h

variable {s : Sys V} {t : Nat} {io : Cell.Io V}

theorem acquires_put_of_ne
    (h : ∀ a w m v, s.pcs t ≠ .takeSwap a w m v) : acquires s (.put t io) = [] := by
  cases io with
  | reply tok =>
    simp only [acquires]
  | lost tok => rfl
  | fail => rfl

theorem acquires_put_idle {v : V} (hreq : request (s.pcs t) = some (m, v))
    (h : io = .fail ∨ s.cell.map Prod.snd ≠ some v) : acquires s (.put t io) = [] := by
  cases io with
  | reply tok =>
    have hne := h.resolve_left (by rintro ⟨⟩)
    simp only [acquires]
    split
    · rename_i a w m₀ v₀ heq
      rw [heq] at hreq
      cases hreq
      exact if_neg hne
    · rfl
  | lost tok => rfl
  | fail => rfl

omit [DecidableEq V] in
theorem landed_takes_ne {tok : V} {pc : Pc V}
    (h : ∀ a w m v, pc ≠ .takeSwap a w m v) : (s.landed t tok pc).takes = s.takes := by
  cases pc with
  | takeSwap a w m v => exact absurd rfl (h a w m v)
  | _ => rfl

variable {l : Label V}

theorem next_moved {s' : Sys V} (hi : Inv content s)
    (hn : next content s l = some s') : Moved s s' l := by
  cases l with
  | begin t c =>
    simp only [next] at hn
    split at hn
    · obtain ⟨pc, -, rfl⟩ := Option.map_eq_some_iff.mp hn
      exact .same rfl rfl rfl
    · obtain ⟨pc, -, rfl⟩ := Option.map_eq_some_iff.mp hn
      exact .same rfl rfl rfl
    · cases hn
  | clock t now =>
    simp only [next] at hn
    split at hn
    · cases hn
      exact .same rfl rfl rfl
    · cases hn
  | get t ok =>
    simp only [next] at hn
    split at hn
    · obtain ⟨pc, -, rfl⟩ := Option.map_eq_some_iff.mp hn
      exact .same rfl rfl rfl
    · obtain ⟨pc, -, rfl⟩ := Option.map_eq_some_iff.mp hn
      exact .same rfl rfl rfl
  | put t io =>
    obtain ⟨⟨m, v⟩, hreq, hn⟩ := Option.bind_eq_some_iff.mp hn
    obtain ⟨⟨cell, r⟩, hput, hn⟩ := Option.bind_eq_some_iff.mp hn
    rcases Cell.putIfMatch_swap hput with ⟨tok, hexp, rfl, -, hr⟩ | ⟨rfl, hr, hidle⟩
    · obtain ⟨⟨m₀, v₀⟩, hcell, rfl⟩ := Option.map_eq_some_iff.mp hexp
      obtain rfl := hi.sound m₀ v₀ hcell
      rcases request_keepsFence (hi.pcs t) hreq with ⟨a, w, hpc, rfl⟩ | ⟨hne, hkeep⟩
      · rcases hr with ⟨rfl, rfl⟩ | ⟨rfl, rfl⟩
        · cases hn
          refine .took t _ a w _ _ tok rfl hpc rfl hcell ?_ (.inr ⟨?_, ?_⟩)
          · exact landed_cell
          · simp [acquires, hpc, hcell]
          · rw [hpc]
            rfl
        · cases hn
          exact .took t _ a w _ _ tok rfl hpc rfl hcell rfl (.inl ⟨rfl, rfl⟩)
      · rcases hr with ⟨rfl, rfl⟩ | ⟨rfl, rfl⟩
        · cases hn
          exact .kept _ _ _ tok hcell landed_cell hkeep (acquires_put_of_ne hne)
            (landed_takes_ne hne)
        · cases hn
          exact .kept _ _ _ tok hcell rfl hkeep rfl rfl
    · have hnone := acquires_put_idle hreq hidle
      rcases hr with rfl | rfl
      · cases hn
        exact .same rfl hnone rfl
      · cases hn
        exact .same rfl hnone rfl
  | snapshot t ack =>
    simp only [next] at hn
    split at hn
    · cases hn
      cases ack with
      | reply => exact .same rfl rfl rfl
      | lost => exact .same rfl rfl rfl
      | fail => exact .same rfl rfl rfl
    · cases hn
  | clone i =>
    obtain ⟨hl, -, rfl⟩ := Option.map_eq_some_iff.mp hn
    exact .same rfl rfl rfl
  | publish f tok =>
    simp only [next] at hn
    split at hn
    · rename_i m v hcell
      split at hn
      · cases hn
        exact .kept m _ v tok hcell rfl (keepsFence_of_eq (f.lease_eq m)) rfl rfl
      · cases hn
    · cases hn

/-! ## Fences of a run -/

/-- The acquisitions so far are the takes that returned, their fences go
up, and a lease record is at least at the fence of each. -/
structure Rising (p : Sys V × List (HeldLease V)) : Prop where
  takes : p.1.takes = p.2.map HeldLease.epoch
  increasing : (p.2.map HeldLease.fence).Pairwise (· < ·)
  pos : ∀ h ∈ p.2, 0 < h.fence
  recorded : ∀ h ∈ p.2, ∀ m v l, p.1.cell = some (m, v) → m.lease = some l → h.fence ≤ l.fence

omit [DecidableEq V] in
theorem rising_nil (h : s.takes = []) : Rising (s, []) where
  takes := h
  increasing := List.Pairwise.nil
  pos h' hh := by cases hh
  recorded h' hh := by cases hh

variable {log : List (HeldLease V)}

omit [DecidableEq V] in
theorem Rising.takes_nil (hr : Rising (s, log)) : s.takes = [] ↔ log = [] := by
  rw [hr.takes]
  exact List.map_eq_nil_iff

/-- A take counts up from the record it lands over, so its fence is above
every fence the record is at least at. -/
theorem Rising.below {a : TakeArgs} {w : Option Wait} {v : V} (hr : Rising (s, log))
    (hok : restarts s (.put t io) = false) (hpc : s.pcs t = .takeSwap a w m v)
    (hlands : lands io = true) (hcell : s.cell = some (m, v)) :
    ∀ h ∈ log, h.fence < TakeArgs.fence m := by
  intro h hh
  cases hl : m.lease with
  | some l =>
    rw [fence_of_lease hl]
    exact Nat.lt_succ_of_le (hr.recorded h hh m v l hcell hl)
  | none =>
    -- Over a cleared record the take is the first to return.
    exfalso
    have htakes : s.takes = [] := by
      simpa [restarts, hpc, hlands, hcell, hl] using hok
    rw [hr.takes_nil.mp htakes] at hh
    cases hh

theorem rising_next {p : Sys V × List (HeldLease V)} (hi : Inv content s) (hr : Rising (s, log))
    (hok : restarts s l = false) (hn : nextAcquiring content (s, log) l = some p) : Rising p := by
  obtain ⟨s', hstep, rfl⟩ := Trace.logged_some hn
  cases next_moved hi hstep with
  | same hcell hnone htakes =>
    rw [hnone, List.append_nil]
    refine ⟨htakes.trans hr.takes, hr.increasing, hr.pos, ?_⟩
    intro h hh m v l hc
    exact hr.recorded h hh m v l (hcell ▸ hc)
  | kept m m' v tok hb ha hkeep hnone htakes =>
    rw [hnone, List.append_nil]
    refine ⟨htakes.trans hr.takes, hr.increasing, hr.pos, ?_⟩
    intro h hh m₁ v₁ l₁ hc hl
    obtain ⟨rfl, rfl⟩ := Prod.mk.inj (Option.some.inj (ha.symm.trans hc))
    obtain ⟨l₀, hl₀, hle⟩ := hkeep l₁ hl
    exact hle ▸ hr.recorded h hh m v l₀ hb hl₀
  | took t io a w m v tok hlabel hpc hlands hb ha hheard =>
    subst hlabel
    have hbelow := hr.below hok hpc hlands hb
    -- The record the take leaves is at its own fence.
    have hnew : ∀ m₁ v₁ l₁, s'.cell = some (m₁, v₁) → m₁.lease = some l₁ →
        l₁.fence = TakeArgs.fence m := by
      intro m₁ v₁ l₁ hc hl
      obtain ⟨rfl, rfl⟩ := Prod.mk.inj (Option.some.inj (ha.symm.trans hc))
      cases hl
      rfl
    rcases hheard with ⟨hnone, htakes⟩ | ⟨hone, htakes⟩
    · rw [hnone, List.append_nil]
      refine ⟨htakes.trans hr.takes, hr.increasing, hr.pos, ?_⟩
      intro h hh m₁ v₁ l₁ hc hl
      exact hnew m₁ v₁ l₁ hc hl ▸ Nat.le_of_lt (hbelow h hh)
    · rw [hone]
      refine ⟨?_, ?_, ?_, ?_⟩
      · rw [htakes, hr.takes, List.map_append]
        rfl
      · rw [List.map_append]
        refine List.pairwise_append.mpr ⟨hr.increasing, List.pairwise_singleton _ _, ?_⟩
        intro f hf f' hf'
        cases List.mem_singleton.mp hf'
        obtain ⟨h, hh, rfl⟩ := List.mem_map.mp hf
        exact hbelow h hh
      · intro h hh
        rcases List.mem_append.mp hh with hold | hlast
        · exact hr.pos h hold
        · cases List.mem_singleton.mp hlast
          exact fence_pos m
      · intro h hh m₁ v₁ l₁ hc hl
        rw [hnew m₁ v₁ l₁ hc hl]
        rcases List.mem_append.mp hh with hold | hlast
        · exact Nat.le_of_lt (hbelow h hold)
        · cases List.mem_singleton.mp hlast
          exact le_rfl

/-- A take that returns over a cleared record starts again at one, which
is no more than the fence of an earlier acquisition. -/
theorem Rising.broken {p : Sys V × List (HeldLease V)} (hi : Inv content s) (hr : Rising (s, log))
    (hbad : restarts s l = true) (hacq : acquires s l ≠ [])
    (hn : nextAcquiring content (s, log) l = some p) :
    ¬(p.2.map HeldLease.fence).Pairwise (· < ·) := by
  obtain ⟨s', hstep, rfl⟩ := Trace.logged_some hn
  cases next_moved hi hstep with
  | same hcell hnone htakes => exact absurd hnone hacq
  | kept m m' v tok hb ha hkeep hnone htakes => exact absurd hnone hacq
  | took t io a w m v tok hlabel hpc hlands hb ha hheard =>
    subst hlabel
    obtain ⟨hlease, htakes⟩ : m.lease = none ∧ s.takes ≠ [] := by
      simpa [restarts, hpc, hlands, hb] using hbad
    obtain ⟨h, hh⟩ := List.exists_mem_of_ne_nil log fun hnil => htakes (hr.takes_nil.mpr hnil)
    have hone := (hheard.resolve_left fun hno => hacq hno.1).1
    intro hpw
    rw [hone, List.map_append] at hpw
    have hlt : h.fence < (a.heldLease m tok).fence :=
      (List.pairwise_append.mp hpw).2.2 _ (List.mem_map_of_mem hh) _ (List.mem_singleton.mpr rfl)
    rw [heldLease_fence, fence_of_cleared hlease] at hlt
    have hpos := hr.pos h hh
    omega

/-- Fences go up from acquisition to acquisition in every run in which no
take lands over a record that was cleared after an acquisition. And a
take that does so and returns breaks the order: it starts again at one. -/
theorem fences_rise {s₀ s : Sys V} {log : List (HeldLease V)} {ls : List (Label V)}
    (h0 : Init content s₀)
    (hok : Trace.Meets (nextAcquiring content) (fun p l => restarts p.1 l = false) (s₀, []) ls)
    (hr : Trace.run (nextAcquiring content) (s₀, []) ls = some (s, log)) :
    (log.map HeldLease.fence).Pairwise (· < ·)
      ∧ ∀ l p, restarts s l = true → acquires s l ≠ [] →
          nextAcquiring content (s, log) l = some p →
          ¬(p.2.map HeldLease.fence).Pairwise (· < ·) := by
  have hstep : ∀ (p : Sys V × List (HeldLease V)) l p', Inv content p.1 ∧ Rising p →
      restarts p.1 l = false → nextAcquiring content p l = some p' →
      Inv content p'.1 ∧ Rising p' := by
    rintro p l p' ⟨hi, hrise⟩ hl hn
    obtain ⟨s', hn', heq⟩ := Trace.logged_some hn
    have hinv : Inv content p'.1 := by
      rw [heq]
      exact inv_next hi hn'
    exact ⟨hinv, rising_next hi hrise hl hn⟩
  have hinv := Trace.guarded_invariant hstep ⟨h0.inv, rising_nil h0.takes⟩ hok hr
  exact ⟨hinv.2.increasing, fun l p hbad hacq hn => hinv.2.broken hinv.1 hbad hacq hn⟩

theorem init_fresh (m : Manifest) : Init id (fresh m) where
  sound m' v h := by cases h; rfl
  handles := rfl
  pcs _ := rfl
  takes := rfl

/-- Alice acquires and Bob steals: no record was cleared, and the fences
are one and two. -/
theorem fences_rise_stolen :
    ∃ s log, Trace.run (nextAcquiring id) (fresh (Manifest.new "acme" 17), []) stolen
        = some (s, log)
      ∧ log.map HeldLease.fence = [1, 2] ∧ (log.map HeldLease.fence).Pairwise (· < ·) := by
  have hr : Trace.run (nextAcquiring id) (fresh (Manifest.new "acme" 17), []) stolen
      = some _ := rfl
  exact ⟨_, _, hr, rfl, (fences_rise (init_fresh _) (by decide) hr).1⟩

/-- Alice acquires and releases, and acquires once more. -/
def released : List (Label Manifest) :=
  let m₀ := Manifest.new "acme" 17
  let m₁ := alice.grant m₀
  let m₂ := { m₁ with lease := none }
  [.begin 0 (.take alice), .get 0 true, .put 0 (.reply m₁),
   .begin 0 (.through 0 .release), .get 0 true, .put 0 (.reply m₂),
   .begin 0 (.take alice), .get 0 true, .put 0 (.reply (alice.grant m₂))]

/-- The fences of the two acquisitions are both one. -/
theorem fences_restart :
    ∃ s₀ s log, Init id s₀ ∧ Trace.run (nextAcquiring id) (s₀, []) released = some (s, log)
      ∧ log.map HeldLease.epoch = [1, 2] ∧ log.map HeldLease.fence = [1, 1]
      ∧ ¬(log.map HeldLease.fence).Pairwise (· < ·) := by
  have hr : Trace.run (nextAcquiring id) (fresh (Manifest.new "acme" 17), []) released
      = some _ := rfl
  exact ⟨_, _, _, init_fresh _, hr, rfl, rfl, by decide⟩

end Sys

end Zou
