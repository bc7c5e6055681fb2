import Mathlib.Data.List.Nodup
import Mathlib.Data.List.Perm.Basic
import Zou.Realtime.Dropped

/-!
# What a dropped link held is given back once

Every ending of a holding loop is held under a link or has its fate, and
nothing becomes of what was given back. That needs nothing of the timers.
That a grace passes before a timer gives something back does: a timer whose
link dropped a second time finds what the second drop put.
-/

namespace Zou.Dropped

open Trace

/-! ## The invariant -/

/-- What was given back. -/
def gone (s : State) : List Nat := (s.fates.filter Fate.released).map Fate.ashore

structure Inv (s : State) : Prop where
  once : (s.fates.map Fate.ending).Nodup
  waiting : ∀ link kept, s.held link = some kept → kept.ending ∉ s.fates.map Fate.ending
  all : ∀ ending < s.endings, ending ∈ s.fates.map Fate.ending ∨
    ∃ link kept, s.held link = some kept ∧ kept.ending = ending
  timed : ∀ link kept, s.held link = some kept → ⟨link, kept.ending, kept.put⟩ ∈ s.timers
  timers : (s.timers.map Timer.ending).Nodup
  fate_lt : ∀ f ∈ s.fates, f.ending < s.endings ∧ f.ashore < s.ashores
  held_lt : ∀ link kept, s.held link = some kept →
    kept.ending < s.endings ∧ kept.ashore < s.ashores
  timer_lt : ∀ t ∈ s.timers, t.ending < s.endings
  loop_lt : ∀ l ∈ s.loops, l.1 < s.ashores
  /-- What is held, in a loop and given back are three places. -/
  loops : (s.loops.map Prod.fst).Nodup
  final : s.fates.Pairwise fun f g => f.released = true → g.ashore ≠ f.ashore
  loops_gone : ∀ a ∈ s.loops.map Prod.fst, a ∉ Dropped.gone s
  held_apart : ∀ link kept, s.held link = some kept →
    kept.ashore ∉ s.loops.map Prod.fst ∧ kept.ashore ∉ Dropped.gone s
  held_one : ∀ link link' kept kept', s.held link = some kept → s.held link' = some kept' →
    kept.ashore = kept'.ashore → link = link'
  ending_one : ∀ link link' kept kept', s.held link = some kept → s.held link' = some kept' →
    kept.ending = kept'.ending → link = link'

/-- Nothing holds it, and it was not given back. -/
structure Free (s : State) (a : Nat) : Prop where
  lt : a < s.ashores
  loops : a ∉ s.loops.map Prod.fst
  gone : a ∉ Dropped.gone s
  held : ∀ link kept, s.held link = some kept → kept.ashore ≠ a

variable {s : State}

theorem drop_cases {s' : State} {i : Nat} (h : next s (.drop i) = some s') :
    ∃ l, s.loops[i]? = some l ∧ s' = ended { s with loops := s.loops.eraseIdx i } l.1 l.2 := by
  simp only [next] at h
  cases hl : s.loops[i]? with
  | none =>
    rw [hl] at h
    cases h
  | some l =>
    rw [hl] at h
    exact ⟨l, rfl, (Option.some.inj h).symm⟩

theorem fire_cases {s' : State} {i : Nat} (h : next s (.fire i) = some s') :
    ∃ t, s.timers[i]? = some t ∧ t.started + GRACE ≤ s.now ∧
      s' = take { s with timers := s.timers.eraseIdx i } t.link
        fun kept => .expired kept.put s.now := by
  simp only [next] at h
  cases ht : s.timers[i]? with
  | none =>
    rw [ht] at h
    cases h
  | some t =>
    rw [ht] at h
    obtain ⟨hgrace, heq⟩ := Option.ite_none_right_eq_some.mp h
    exact ⟨t, rfl, hgrace, (Option.some.inj heq).symm⟩

theorem mem_gone {f : Fate} (hf : f ∈ s.fates) (hreleased : f.released = true) :
    f.ashore ∈ gone s := List.mem_map_of_mem (List.mem_filter.mpr ⟨hf, hreleased⟩)

theorem inv_start : Inv start := by
  constructor <;> simp [start, Dropped.gone]

variable {link : Nat}

theorem update_some {held : Nat → Option Kept} {l : Nat} {v : Option Kept} {kept : Kept}
    (h : Function.update held link v l = some kept) :
    l = link ∧ v = some kept ∨ l ≠ link ∧ held l = some kept := by
  by_cases hl : l = link
  · subst hl
    rw [Function.update_self] at h
    exact .inl ⟨rfl, h⟩
  · rw [Function.update_of_ne hl] at h
    exact .inr ⟨hl, h⟩

/-- One more fate of an ending that had none and is not held any more. -/
theorem Inv.fate (h : Inv s) {f : Fate} {held : Nat → Option Kept}
    {endings : Nat} (hle : s.endings ≤ endings)
    (hheld : ∀ link kept, held link = some kept → s.held link = some kept ∧
      kept.ending ≠ f.ending ∧ kept.ashore ≠ f.ashore)
    (hnew : f.ending ∉ s.fates.map Fate.ending) (hlt : f.ending < endings)
    (hashore : f.ashore < s.ashores) (hloops : f.ashore ∉ s.loops.map Prod.fst)
    (hgone : f.ashore ∉ Dropped.gone s)
    (hall : ∀ ending < endings, ending ∈ s.fates.map Fate.ending ∨ ending = f.ending ∨
      ∃ link kept, held link = some kept ∧ kept.ending = ending) :
    Inv { s with held, endings, fates := s.fates ++ [f] } := by
  have hin : ∀ a, a ∈ Dropped.gone { s with held, endings, fates := s.fates ++ [f] } →
      a ∈ Dropped.gone s ∨ a = f.ashore := by
    intro a ha
    obtain ⟨g, hg, rfl⟩ := List.mem_map.mp ha
    obtain ⟨hg, hreleased⟩ := List.mem_filter.mp hg
    rcases List.mem_append.mp hg with hg | hg
    · exact .inl (mem_gone hg hreleased)
    · exact .inr (List.mem_singleton.mp hg ▸ rfl)
  have hfates : ∀ e, e ∈ (s.fates ++ [f]).map Fate.ending ↔
      e ∈ s.fates.map Fate.ending ∨ e = f.ending := by
    intro e
    rw [List.map_append, List.mem_append, List.map_singleton, List.mem_singleton]
  refine ⟨?_, fun link kept hk => ?_, fun ending hending => ?_, fun link kept hk => ?_, h.timers,
    fun g hg => ?_, fun link kept hk => ?_, fun t ht => (h.timer_lt t ht).trans_le hle, h.loop_lt,
    h.loops, ?_, fun a ha hag => ?_, fun link kept hk => ?_,
    fun link link' kept kept' hk hk' => ?_, fun link link' kept kept' hk hk' => ?_⟩
  · rw [List.map_append, List.map_singleton, List.nodup_append]
    refine ⟨h.once, List.pairwise_singleton _ _, fun a ha b hb => ?_⟩
    rw [List.mem_singleton.mp hb]
    rintro rfl
    exact hnew ha
  · obtain ⟨hk, hne, -⟩ := hheld link kept hk
    intro hmem
    exact ((hfates _).mp hmem).elim (h.waiting link kept hk) hne
  · rcases hall ending hending with hmem | heq | hk
    · exact .inl ((hfates _).mpr (.inl hmem))
    · exact .inl ((hfates _).mpr (.inr heq))
    · exact .inr hk
  · exact h.timed link kept (hheld link kept hk).1
  · rcases List.mem_append.mp hg with hg | hg
    · exact ⟨(h.fate_lt g hg).1.trans_le hle, (h.fate_lt g hg).2⟩
    · rw [List.mem_singleton.mp hg]
      exact ⟨hlt, hashore⟩
  · obtain ⟨hending, hashore⟩ := h.held_lt link kept (hheld link kept hk).1
    exact ⟨hending.trans_le hle, hashore⟩
  · refine List.pairwise_append.mpr ⟨h.final, List.pairwise_singleton _ _, ?_⟩
    intro g hg b hb hreleased
    rw [List.mem_singleton.mp hb]
    intro heq
    exact hgone (heq ▸ mem_gone hg hreleased)
  · rcases hin a hag with hag | rfl
    · exact h.loops_gone a ha hag
    · exact hloops ha
  · obtain ⟨hk, -, hne⟩ := hheld link kept hk
    obtain ⟨hl, hg⟩ := h.held_apart link kept hk
    exact ⟨hl, fun hag => (hin _ hag).elim hg hne⟩
  · exact h.held_one link link' kept kept' (hheld _ _ hk).1 (hheld _ _ hk').1
  · exact h.ending_one link link' kept kept' (hheld _ _ hk).1 (hheld _ _ hk').1

theorem Inv.take (h : Inv s) (link : Nat) (how : Kept → How) : Inv (take s link how) := by
  unfold Dropped.take
  cases hk : s.held link with
  | none =>
    have hsame : Function.update s.held link none = s.held := by
      rw [← hk]
      exact Function.update_eq_self link s.held
    rw [hsame]
    show Inv { s with fates := s.fates ++ [] }
    rw [List.append_nil]
    exact h
  | some kept =>
    obtain ⟨hending, hashore⟩ := h.held_lt link kept hk
    obtain ⟨hloops, hgone⟩ := h.held_apart link kept hk
    refine h.fate le_rfl (fun l k hl => ?_) (h.waiting link kept hk) hending hashore hloops hgone
      fun ending hlt => ?_
    · rcases update_some hl with ⟨-, hno⟩ | ⟨hne, hl⟩
      · cases hno
      · exact ⟨hl, fun heq => hne (h.ending_one l link k kept hl hk heq),
          fun heq => hne (h.held_one l link k kept hl hk heq)⟩
    · rcases h.all ending hlt with hmem | ⟨l, k, hl, heq⟩
      · exact .inl hmem
      · by_cases hll : l = link
        · subst hll
          obtain rfl : k = kept := Option.some.inj (hl.symm.trans hk)
          exact .inr (.inl heq.symm)
        · exact .inr (.inr ⟨l, k, by rw [Function.update_of_ne hll]; exact hl, heq⟩)

variable {how : Kept → How}

theorem mem_fated {held : Option Kept} {f : Fate} (h : f ∈ fated held how) :
    ∃ kept, held = some kept ∧ f = ⟨kept.ending, kept.ashore, how kept⟩ := by
  cases held with
  | none => cases h
  | some kept => exact ⟨kept, rfl, List.mem_singleton.mp h⟩

theorem take_held (s : State) (link : Nat) (how : Kept → How) :
    (take s link how).held link = none := Function.update_self ..


theorem gone_take (s : State) (link : Nat) (how : Kept → How) : gone (take s link how) =
      gone s ++ ((fated (s.held link) how).filter Fate.released).map Fate.ashore := by
  unfold gone take
  rw [List.filter_append, List.map_append]

variable {a : Nat}

theorem mem_gone_take (h : a ∈ gone (take s link how)) :
    a ∈ gone s ∨ ∃ kept, s.held link = some kept ∧ kept.ashore = a ∧
      (Fate.mk kept.ending kept.ashore (how kept)).released = true := by
  rw [gone_take, List.mem_append] at h
  refine h.imp_right fun h => ?_
  obtain ⟨f, hf, rfl⟩ := List.mem_map.mp h
  obtain ⟨hf, hreleased⟩ := List.mem_filter.mp hf
  obtain ⟨kept, hk, rfl⟩ := mem_fated hf
  exact ⟨kept, hk, rfl, hreleased⟩

theorem take_held_some {l : Nat} {kept : Kept}
    (h : (take s link how).held l = some kept) : l ≠ link ∧ s.held l = some kept := by
  rcases update_some h with ⟨-, hno⟩ | h
  · cases hno
  · exact h

theorem Free.take (h : Free s a) (link : Nat) (how : Kept → How) : Free (take s link how) a where
  lt := h.lt
  loops := h.loops
  gone hg := (mem_gone_take hg).elim h.gone fun ⟨kept, hk, heq, _⟩ => h.held link kept hk heq
  held l kept hk := h.held l kept (take_held_some hk).2

theorem Inv.free_taken (h : Inv s) {kept : Kept}
    (hk : s.held link = some kept) (hhow : ∀ e a k, (Fate.mk e a (how k)).released = false) :
    Free (Dropped.take s link how) kept.ashore where
  lt := (h.held_lt link kept hk).2
  loops := (h.held_apart link kept hk).1
  gone hg := (mem_gone_take hg).elim (h.held_apart link kept hk).2 fun ⟨_, _, _, hr⟩ =>
    Bool.false_ne_true ((hhow _ _ _).symm.trans hr)
  held l k hl heq := by
    obtain ⟨hne, hl⟩ := take_held_some hl
    exact hne (h.held_one l link k kept hl hk heq)

theorem Inv.free_new (h : Inv s) : Free { s with ashores := s.ashores + 1 } s.ashores where
  lt := Nat.lt_succ_self _
  loops hl := by
    obtain ⟨l, hl, heq⟩ := List.mem_map.mp hl
    exact (h.loop_lt l hl).ne heq
  gone hg := by
    obtain ⟨f, hf, heq⟩ := List.mem_map.mp hg
    exact (h.fate_lt f (List.mem_of_mem_filter hf)).2.ne heq
  held l k hk := (h.held_lt l k hk).2.ne

theorem Inv.loop (h : Inv s) (ha : Free s a) (link : Nat) :
    Inv { s with loops := s.loops ++ [(a, link)] } := by
  have hmem : ∀ b, b ∈ (s.loops ++ [(a, link)]).map Prod.fst ↔
      b ∈ s.loops.map Prod.fst ∨ b = a := by
    intro b
    rw [List.map_append, List.mem_append, List.map_singleton, List.mem_singleton]
  refine { h with loop_lt := fun l hl => ?_, loops := ?_, loops_gone := fun b hb => ?_,
                  held_apart := fun l k hk => ?_ }
  · rcases List.mem_append.mp hl with hl | hl
    · exact h.loop_lt l hl
    · rw [List.mem_singleton.mp hl]
      exact ha.lt
  · rw [List.map_append, List.map_singleton, List.nodup_append]
    refine ⟨h.loops, List.pairwise_singleton _ _, fun b hb c hc => ?_⟩
    rw [List.mem_singleton.mp hc]
    rintro rfl
    exact ha.loops hb
  · rcases (hmem b).mp hb with hb | rfl
    · exact h.loops_gone b hb
    · exact ha.gone
  · refine ⟨fun hb => ?_, (h.held_apart l k hk).2⟩
    rcases (hmem _).mp hb with hb | hb
    · exact (h.held_apart l k hk).1 hb
    · exact ha.held l k hk hb

theorem Inv.unloop (h : Inv s) (i : Nat) : Inv { s with loops := s.loops.eraseIdx i } := by
  have hsub : (s.loops.eraseIdx i).Sublist s.loops := List.eraseIdx_sublist ..
  exact { h with
    loop_lt := fun l hl => h.loop_lt l (hsub.mem hl)
    loops := h.loops.sublist (hsub.map _)
    loops_gone := fun b hb => h.loops_gone b ((hsub.map _).mem hb)
    held_apart := fun l k hk => ⟨fun hb => (h.held_apart l k hk).1 ((hsub.map _).mem hb),
      (h.held_apart l k hk).2⟩ }

theorem Inv.free_ended (h : Inv s) {i : Nat} {l : Nat × Nat}
    (hl : s.loops[i]? = some l) : Free { s with loops := s.loops.eraseIdx i } l.1 where
  lt := h.loop_lt l (List.mem_of_getElem? hl)
  loops hmem := by
    obtain ⟨hi, heq⟩ := List.getElem?_eq_some_iff.mp hl
    have hperm : (s.loops.map Prod.fst).Perm (l.1 :: (s.loops.eraseIdx i).map Prod.fst) := by
      rw [← heq, ← List.map_cons]
      exact (List.getElem_cons_eraseIdx_perm hi).symm.map _
    exact (List.nodup_cons.mp (hperm.nodup_iff.mp h.loops)).1 hmem
  gone := h.loops_gone l.1 (List.mem_map_of_mem (List.mem_of_getElem? hl))
  held k kept hk heq :=
    (h.held_apart k kept hk).1 (heq ▸ List.mem_map_of_mem (List.mem_of_getElem? hl))

theorem Inv.untimed (h : Inv s) {i : Nat} {t : Timer} (ht : s.timers[i]? = some t)
    (hnone : s.held t.link = none) : Inv { s with timers := s.timers.eraseIdx i } := by
  have hsub : (s.timers.eraseIdx i).Sublist s.timers := List.eraseIdx_sublist ..
  refine { h with timed := fun l k hk => ?_, timers := h.timers.sublist (hsub.map _),
                  timer_lt := fun t ht => h.timer_lt t (hsub.mem ht) }
  obtain ⟨hi, heq⟩ := List.getElem?_eq_some_iff.mp ht
  have hperm : s.timers.Perm (t :: s.timers.eraseIdx i) :=
    heq ▸ (List.getElem_cons_eraseIdx_perm hi).symm
  rcases List.mem_cons.mp (hperm.mem_iff.mp (h.timed l k hk)) with hmem | hmem
  · rw [← hmem, hk] at hnone
    cases hnone
  · exact hmem

/-- A link with nothing held is left something, with a timer for it. -/
theorem Inv.put (h : Inv s) (hnone : s.held link = none) (ha : Free s a) :
    Inv { s with held := Function.update s.held link (some ⟨a, s.endings, s.now⟩)
                 timers := s.timers ++ [⟨link, s.endings, s.now⟩]
                 endings := s.endings + 1 } := by
  have hheld : ∀ l k, Function.update s.held link (some ⟨a, s.endings, s.now⟩) l = some k →
      l = link ∧ k = ⟨a, s.endings, s.now⟩ ∨ l ≠ link ∧ s.held l = some k := by
    intro l k hk
    exact (update_some hk).imp_left fun hnew => ⟨hnew.1, (Option.some.inj hnew.2).symm⟩
  have hput : Function.update s.held link (some ⟨a, s.endings, s.now⟩) link =
      some ⟨a, s.endings, s.now⟩ := Function.update_self ..
  have hkept : ∀ l k, s.held l = some k →
      Function.update s.held link (some ⟨a, s.endings, s.now⟩) l = some k := by
    intro l k hk
    rwa [Function.update_of_ne]
    rintro rfl
    rw [hnone] at hk
    cases hk
  refine { h with waiting := fun l k hk => ?_, all := fun e he => ?_, timed := fun l k hk => ?_
                  timers := ?_, fate_lt := fun f hf => ?_, held_lt := fun l k hk => ?_
                  timer_lt := fun t ht => ?_, held_apart := fun l k hk => ?_
                  held_one := fun l l' k k' hk hk' heq => ?_
                  ending_one := fun l l' k k' hk hk' heq => ?_ }
  · rcases hheld l k hk with ⟨-, rfl⟩ | ⟨-, hk⟩
    · intro hmem
      obtain ⟨f, hf, heq⟩ := List.mem_map.mp hmem
      exact (h.fate_lt f hf).1.ne heq
    · exact h.waiting l k hk
  · rcases Nat.lt_succ_iff_lt_or_eq.mp he with he | rfl
    · exact (h.all e he).imp_right fun ⟨l, k, hk, heq⟩ => ⟨l, k, hkept l k hk, heq⟩
    · exact .inr ⟨link, _, hput, rfl⟩
  · rcases hheld l k hk with ⟨rfl, rfl⟩ | ⟨-, hk⟩
    · exact List.mem_append_right _ (List.mem_singleton_self _)
    · exact List.mem_append_left _ (h.timed l k hk)
  · rw [List.map_append, List.map_singleton, List.nodup_append]
    refine ⟨h.timers, List.pairwise_singleton _ _, fun e he b hb => ?_⟩
    rw [List.mem_singleton.mp hb]
    rintro rfl
    obtain ⟨t, ht, heq⟩ := List.mem_map.mp he
    exact (h.timer_lt t ht).ne heq
  · exact ⟨Nat.lt_succ_of_lt (h.fate_lt f hf).1, (h.fate_lt f hf).2⟩
  · rcases hheld l k hk with ⟨-, rfl⟩ | ⟨-, hk⟩
    · exact ⟨Nat.lt_succ_self _, ha.lt⟩
    · exact ⟨Nat.lt_succ_of_lt (h.held_lt l k hk).1, (h.held_lt l k hk).2⟩
  · rcases List.mem_append.mp ht with ht | ht
    · exact Nat.lt_succ_of_lt (h.timer_lt t ht)
    · rw [List.mem_singleton.mp ht]
      exact Nat.lt_succ_self _
  · rcases hheld l k hk with ⟨-, rfl⟩ | ⟨-, hk⟩
    · exact ⟨ha.loops, ha.gone⟩
    · exact h.held_apart l k hk
  · rcases hheld l k hk with ⟨rfl, rfl⟩ | ⟨-, hold⟩ <;>
      rcases hheld l' k' hk' with ⟨rfl, rfl⟩ | ⟨-, hold'⟩
    · rfl
    · exact absurd heq.symm (ha.held l' k' hold')
    · exact absurd heq (ha.held l k hold)
    · exact h.held_one l l' k k' hold hold' heq
  · rcases hheld l k hk with ⟨rfl, rfl⟩ | ⟨-, hold⟩ <;>
      rcases hheld l' k' hk' with ⟨rfl, rfl⟩ | ⟨-, hold'⟩
    · rfl
    · exact absurd heq.symm (h.held_lt l' k' hold').1.ne
    · exact absurd heq (h.held_lt l k hold).1.ne
    · exact h.ending_one l l' k k' hold hold' heq

theorem keep_eq (s : State) (link ashore : Nat) : keep s link ashore =
      { take s link fun _ => .displaced with
        held := Function.update (take s link fun _ => .displaced).held link
          (some ⟨ashore, s.endings, s.now⟩)
        timers := s.timers ++ [⟨link, s.endings, s.now⟩]
        endings := s.endings + 1 } := by
  unfold keep take
  simp only [Function.update_idem]

theorem Inv.keep (h : Inv s) (ha : Free s a) (link : Nat) : Inv (Dropped.keep s link a) := by
  rw [keep_eq]
  exact (h.take link fun _ => .displaced).put (take_held ..) (ha.take link _)

theorem Inv.more (h : Inv s) : Inv { s with ashores := s.ashores + 1 } :=
  { h with
    fate_lt := fun f hf => ⟨(h.fate_lt f hf).1, Nat.lt_succ_of_lt (h.fate_lt f hf).2⟩
    held_lt := fun l k hk => ⟨(h.held_lt l k hk).1, Nat.lt_succ_of_lt (h.held_lt l k hk).2⟩
    loop_lt := fun l hl => Nat.lt_succ_of_lt (h.loop_lt l hl) }

theorem Inv.fresh (h : Inv s) (link : Nat) (carried : Bool) :
    Inv (Dropped.fresh s link carried) := by
  unfold Dropped.fresh
  split
  · exact h.more.loop h.free_new link
  · exact h

theorem Inv.greeted (h : Inv s) (link : Nat) (replayable carried : Bool) :
    Inv (Dropped.greeted s link replayable carried) := by
  unfold Dropped.greeted
  by_cases hlink : link = 0
  · rw [if_pos hlink]
    exact h.fresh link carried
  · rw [if_neg hlink]
    cases hk : s.held link with
    | none => exact h.fresh link carried
    | some kept =>
      cases replayable with
      | false => exact (h.take link fun _ => .refused).fresh link carried
      | true =>
        cases carried with
        | true =>
          exact (h.take link fun _ => .resumed).loop (h.free_taken hk fun _ _ _ => rfl) link
        | false =>
          exact (h.take link fun _ => .again s.endings).keep (h.free_taken hk fun _ _ _ => rfl) link

theorem Inv.ended (h : Inv s) (ha : Free s a) (link : Nat) : Inv (Dropped.ended s a link) := by
  unfold Dropped.ended
  split
  · refine h.fate (Nat.le_succ _)
      (fun l k hk => ⟨hk, (h.held_lt l k hk).1.ne, ha.held l k hk⟩) (fun hmem => ?_)
      (Nat.lt_succ_self _) ha.lt ha.loops ha.gone fun e he => ?_
    · obtain ⟨f, hf, heq⟩ := List.mem_map.mp hmem
      exact (h.fate_lt f hf).1.ne heq
    · rcases Nat.lt_succ_iff_lt_or_eq.mp he with he | rfl
      · exact (h.all e he).imp_right .inr
      · exact .inr (.inl rfl)
  · exact h.keep ha link

theorem inv_next {s' : State} {a : Act} (h : Inv s) (hnext : next s a = some s') : Inv s' := by
  cases a with
  | tick seconds =>
    cases hnext
    exact { h with }
  | hello link replayable carried =>
    cases hnext
    exact h.greeted link replayable carried
  | drop i =>
    obtain ⟨l, hl, rfl⟩ := drop_cases hnext
    exact (h.unloop i).ended (h.free_ended hl) l.2
  | fire i =>
    obtain ⟨t, ht, -, rfl⟩ := fire_cases hnext
    exact (h.take t.link _).untimed ht (take_held ..)

/-! ## Endings that are kept once more -/

def Again (s : State) : Prop :=
  ∀ f ∈ s.fates, ∀ ending, f.how = .again ending → f.ending < ending ∧ Traced s ending f.ashore

theorem Traced.take {e : Nat} (h : Traced s e a) (link : Nat) (how : Kept → How) :
    Traced (take s link how) e a := by
  rcases h with ⟨f, hf, heq⟩ | ⟨l, kept, hk, he, ha⟩
  · exact .inl ⟨f, List.mem_append_left _ hf, heq⟩
  · by_cases hl : l = link
    · refine .inl ⟨⟨kept.ending, kept.ashore, how kept⟩, List.mem_append_right _ ?_, he, ha⟩
      rw [← hl, hk]
      exact List.mem_singleton_self _
    · exact .inr ⟨l, kept, (Function.update_of_ne hl ..).trans hk, he, ha⟩

theorem Traced.keep {e : Nat} (h : Traced s e a) (link ashore : Nat) :
    Traced (keep s link ashore) e a := by
  rw [keep_eq]
  rcases h.take link fun _ => .displaced with hf | ⟨l, kept, hk, heq⟩
  · exact .inl hf
  · exact .inr ⟨l, kept, (Function.update_of_ne (take_held_some hk).1 ..).trans hk, heq⟩

theorem Again.take (h : Again s)
    (hhow : ∀ kept e, how kept ≠ .again e) : Again (take s link how) := by
  intro f hf e he
  rcases List.mem_append.mp hf with hf | hf
  · exact ⟨(h f hf e he).1, (h f hf e he).2.take link how⟩
  · obtain ⟨kept, -, rfl⟩ := mem_fated hf
    exact absurd he (hhow kept e)

theorem Again.keep (h : Again s) (link ashore : Nat) : Again (keep s link ashore) := by
  intro f hf e he
  rcases List.mem_append.mp hf with hf | hf
  · exact ⟨(h f hf e he).1, (h f hf e he).2.keep link ashore⟩
  · obtain ⟨kept, -, rfl⟩ := mem_fated hf
    cases he

/-- A hello that went again mid replay leaves what it took where it was. -/
theorem Again.kept (h : Again s) (hinv : Inv s) {kept : Kept} (hk : s.held link = some kept) :
    Again (Dropped.keep (Dropped.take s link fun _ => .again s.endings) link kept.ashore) := by
  intro f hf e he
  rcases List.mem_append.mp hf with hf | hf
  · rcases List.mem_append.mp hf with hf | hf
    · exact ⟨(h f hf e he).1, ((h f hf e he).2.take link _).keep link _⟩
    · obtain ⟨kept', hk', rfl⟩ := mem_fated hf
      cases hk'.symm.trans hk
      cases he
      exact ⟨(hinv.held_lt link _ hk).1,
        .inr ⟨link, ⟨_, s.endings, s.now⟩, Function.update_self .., rfl, rfl⟩⟩
  · rw [take_held] at hf
    cases hf

theorem again_fresh (h : Again s) (link : Nat) (carried : Bool) : Again (fresh s link carried) := by
  unfold fresh
  split <;> exact h

theorem again_next {s' : State} {a : Act} (h : Inv s) (hagain : Again s)
    (hnext : next s a = some s') : Again s' := by
  cases a with
  | tick seconds =>
    cases hnext
    exact hagain
  | hello link replayable carried =>
    cases hnext
    unfold greeted
    by_cases hlink : link = 0
    · rw [if_pos hlink]
      exact again_fresh hagain link carried
    · rw [if_neg hlink]
      cases hk : s.held link with
      | none => exact again_fresh hagain link carried
      | some kept =>
        cases replayable with
        | false => exact again_fresh (hagain.take fun _ _ hno => by cases hno) link carried
        | true =>
          cases carried with
          | true => exact Again.take hagain nofun
          | false => exact hagain.kept h hk
  | drop i =>
    obtain ⟨l, -, rfl⟩ := drop_cases hnext
    unfold ended
    split
    · intro f hf e he
      rcases List.mem_append.mp hf with hf | hf
      · obtain ⟨hlt, htraced⟩ := hagain f hf e he
        refine ⟨hlt, htraced.imp_left ?_⟩
        rintro ⟨g, hg, heq⟩
        exact ⟨g, List.mem_append_left _ hg, heq⟩
      · rw [List.mem_singleton.mp hf] at he
        cases he
    · exact Again.keep (s := { s with loops := s.loops.eraseIdx i }) hagain l.2 l.1
  | fire i =>
    obtain ⟨t, -, -, rfl⟩ := fire_cases hnext
    exact Again.take hagain nofun

theorem Inv.accounted (h : Inv s) (hagain : Again s) : Accounted s where
  once := h.once
  waiting := h.waiting
  all e he := by
    rcases h.all e he with hf | ⟨link, kept, hk, heq⟩
    · obtain ⟨f, hf, heq⟩ := List.mem_map.mp hf
      exact ⟨f.ashore, .inl ⟨f, hf, heq, rfl⟩⟩
    · exact ⟨kept.ashore, .inr ⟨link, kept, hk, heq, rfl⟩⟩
  again := hagain
  settled hnone link := by
    cases hk : s.held link with
    | none => rfl
    | some kept =>
      have hmem := h.timed link kept hk
      rw [hnone] at hmem
      cases hmem
  released := h.final

/-! ## A grace before it is given back -/

/-- What a timer was started for was put when the timer was started. -/
theorem Inv.put_eq (h : Inv s) {kept : Kept} {t : Timer} (hk : s.held link = some kept)
    (ht : t ∈ s.timers) (heq : kept.ending = t.ending) : kept.put = t.started :=
  congrArg Timer.started
    (List.inj_on_of_nodup_map h.timers (h.timed link kept hk) ht heq)

theorem OnTime.take (h : OnTime s)
    (hhow : ∀ kept, s.held link = some kept → ∀ put fired, how kept = .expired put fired →
      put + GRACE ≤ fired) : OnTime (take s link how) := by
  intro f hf put fired he
  rcases List.mem_append.mp hf with hf | hf
  · exact h f hf put fired he
  · obtain ⟨kept, hk, rfl⟩ := mem_fated hf
    exact hhow kept hk put fired he

theorem OnTime.keep (h : OnTime s) (link ashore : Nat) : OnTime (keep s link ashore) := by
  rw [keep_eq]
  have hhow : ∀ kept, s.held link = some kept → ∀ put fired, How.displaced = .expired put fired →
      put + GRACE ≤ fired := nofun
  exact OnTime.take h hhow

theorem onTime_fresh (h : OnTime s) (link : Nat) (carried : Bool) :
    OnTime (fresh s link carried) := by
  unfold fresh
  split <;> exact h

theorem onTime_next {s' : State} {a : Act} (h : Inv s) (htime : OnTime s) (hown : Own s a)
    (hnext : next s a = some s') : OnTime s' := by
  cases a with
  | tick seconds =>
    cases hnext
    exact htime
  | hello link replayable carried =>
    cases hnext
    unfold greeted
    by_cases hlink : link = 0
    · rw [if_pos hlink]
      exact onTime_fresh htime link carried
    · rw [if_neg hlink]
      cases hk : s.held link with
      | none => exact onTime_fresh htime link carried
      | some kept =>
        cases replayable with
        | false =>
          exact onTime_fresh (htime.take fun _ _ _ _ hno => by cases hno) link carried
        | true =>
          cases carried with
          | true => exact OnTime.take htime nofun
          | false => exact (htime.take fun _ _ _ _ hno => by cases hno).keep link _
  | drop i =>
    obtain ⟨l, -, rfl⟩ := drop_cases hnext
    unfold ended
    split
    · intro f hf put fired he
      rcases List.mem_append.mp hf with hf | hf
      · exact htime f hf put fired he
      · rw [List.mem_singleton.mp hf] at he
        cases he
    · exact OnTime.keep (s := { s with loops := s.loops.eraseIdx i }) htime l.2 l.1
  | fire i =>
    obtain ⟨t, ht, hgrace, rfl⟩ := fire_cases hnext
    refine OnTime.take (s := { s with timers := s.timers.eraseIdx i }) htime
      fun kept hk put fired he => ?_
    obtain ⟨rfl, rfl⟩ := How.expired.inj he
    rw [h.put_eq hk (List.mem_of_getElem? ht) (hown t ht kept hk)]
    exact hgrace

/-- Every ending is accounted for, and in a run whose timers find what they
were started for nothing is given back early. -/
theorem given_back_once {acts : List Act} {s : State} (hrun : run next start acts = some s) :
    Accounted s ∧ (Meets next Own start acts → OnTime s) := by
  have hstep : ∀ s a s', Inv s ∧ Again s → next s a = some s' → Inv s' ∧ Again s' :=
    fun _ _ _ h hnext => ⟨inv_next h.1 hnext, again_next h.1 h.2 hnext⟩
  have hinv := run_invariant hstep ⟨inv_start, fun _ hf => nomatch hf⟩ hrun
  refine ⟨hinv.1.accounted hinv.2, fun hown => ?_⟩
  have htime : ∀ s a s', Inv s ∧ OnTime s → Own s a → next s a = some s' → Inv s' ∧ OnTime s' :=
    fun _ _ _ h hok hnext => ⟨inv_next h.1 hnext, onTime_next h.1 h.2 hok hnext⟩
  exact (guarded_invariant htime ⟨inv_start, fun _ hf => nomatch hf⟩ hown hrun).2

instance decidableOwn (s : State) : ∀ a, Decidable (Own s a)
  | .tick _ => inferInstanceAs (Decidable True)
  | .hello .. => inferInstanceAs (Decidable True)
  | .drop _ => inferInstanceAs (Decidable True)
  | .fire i =>
    decidable_of_iff ((s.timers[i]?.all fun t => (s.held t.link).all fun kept =>
      decide (kept.ending = t.ending)) = true)
      (by simp only [Own, Option.all_eq_true, decide_eq_true_eq])

/-- A link that drops, comes back, drops again and stays away. -/
def away : List Act :=
  [.hello 7 false true, .drop 0, .tick 10, .hello 7 true true, .tick 20, .fire 0, .tick 10,
    .drop 0, .tick 30, .fire 0]

theorem given_back_once_away :
    ∃ s, run next start away = some s ∧ s.fates.map Fate.how = [.resumed, .expired 40 70] ∧
      Accounted s ∧ OnTime s := by
  have hfates : (run next start away).map (fun s => s.fates.map Fate.how) =
      some [.resumed, .expired 40 70] := by decide +kernel
  obtain ⟨s, hs, hhow⟩ := Option.map_eq_some_iff.mp hfates
  have h := given_back_once hs
  exact ⟨s, hs, hhow, h.1, h.2 (by decide +kernel)⟩

/-- The second drop of a link meets the timer of its first. -/
def early : List Act :=
  [.hello 7 false true, .drop 0, .tick 10, .hello 7 true true, .tick 10, .drop 0, .tick 10,
    .fire 0]

theorem given_back_early :
    ¬ (∀ acts s, run next start acts = some s → Accounted s ∧ OnTime s) ∧
      ∃ s, run next start early = some s ∧
        s.fates.map Fate.how = [.resumed, .expired 20 30] := by
  have hfates : (run next start early).map (fun s => s.fates.map Fate.how) =
      some [.resumed, .expired 20 30] := by decide +kernel
  obtain ⟨s, hs, hhow⟩ := Option.map_eq_some_iff.mp hfates
  refine ⟨fun hall => ?_, s, hs, hhow⟩
  have hmem : How.expired 20 30 ∈ s.fates.map Fate.how := by
    rw [hhow]
    exact .tail _ (List.mem_singleton_self _)
  obtain ⟨f, hf, he⟩ := List.mem_map.mp hmem
  exact absurd ((hall early s hs).2 f hf 20 30 he) (by decide)

end Zou.Dropped
