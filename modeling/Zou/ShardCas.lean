import Zou.Lib.Cell
import Zou.Site

/-!
# Callers of one shard manifest

`publish_layer`, `advance_consistent` and `swap_layers` are one loop: load
the manifest, edit it, put it back under the version it was loaded with,
and start over when somebody was first. Any number of callers run it
against one object, every request may fail or land with its reply lost, and
a caller may stop anywhere.

Whatever they do, the manifest goes through the edits that landed, one
after the other (`run_commits`). `commits` are those edits, newest first,
which nobody keeps.
-/

namespace Zou

open Cell Trace

/-- The next request of a caller. -/
inductive ShardPc (V : Type) where
  | idle
  | load (edit : ShardEdit)
  | put (edit : ShardEdit) (m : PageShardManifest) (expected : Option V)

structure ShardCell (V : Type) where
  cell : Option (PageShardManifest × V)
  pcs : Nat → ShardPc V
  commits : List ShardEdit

inductive ShardAct (V : Type) where
  | call (edit : ShardEdit)
  | load (ok : Bool)
  | put (io : Io V)
  | stop

namespace ShardCell

variable {V : Type} [DecidableEq V] (content : V → PageShardManifest) (n : Nat)

/-- The manifest; one that is not there is as good as a new one. -/
def view (s : ShardCell V) : PageShardManifest := s.cell.elim (PageShardManifest.new n) Prod.fst

def goto (s : ShardCell V) (i : Nat) (pc : ShardPc V) : ShardCell V :=
  { s with pcs := Function.update s.pcs i pc }

/-- An advance has nothing to do where there is no manifest, or one that is
far enough. -/
def settled (cell : Option (PageShardManifest × V)) : ShardEdit → Bool
  | .advance lsn => cell.all fun p => lsn ≤ p.1.diskConsistentLsn
  | _ => false

/-- What a call does with what it loaded. -/
def loaded (edit : ShardEdit) (cell : Option (PageShardManifest × V)) : ShardPc V :=
  let m := cell.elim (PageShardManifest.new n) Prod.fst
  if m.format > pageShardFormat ∨ settled cell edit then .idle
  else .put edit (edit.apply m) (cell.map Prod.snd)

/-- Does a put change the object. -/
def lands (s : ShardCell V) (expected : Option V) : Io V → Bool
  | .fail => false
  | _ => s.cell.map Prod.snd = expected

def next (s : ShardCell V) : Nat × ShardAct V → Option (ShardCell V)
  | (i, .call edit) => match s.pcs i with
      | .idle => some (s.goto i (.load edit))
      | _ => none
  | (i, .load ok) => match s.pcs i with
      | .load edit => some (s.goto i (if ok then loaded n edit s.cell else .idle))
      | _ => none
  | (i, .put io) => match s.pcs i with
      | .put edit m expected =>
        match putIfMatch content s.cell m expected io with
        | none => none
        | some (cell, r) => some {
            cell := cell
            pcs := Function.update s.pcs i (if r matches .conflict then .load edit else .idle)
            commits := if s.lands expected io then edit :: s.commits else s.commits }
      | _ => none
  | (i, .stop) => some (s.goto i .idle)

/-- Tokens stand for contents, and a put under way is the edit of what its
token stands for. -/
structure Inv (s : ShardCell V) : Prop where
  sound : Sound content s.cell
  pending : ∀ {i edit m expected}, s.pcs i = .put edit m expected →
    m = edit.apply (expected.elim (PageShardManifest.new n) content)

variable {content n}

omit [DecidableEq V] in
theorem goto_pcs {s : ShardCell V} {i j : Nat} {pc : ShardPc V} :
    (s.goto i pc).pcs j = if j = i then pc else s.pcs j := by
  exact Function.update_apply ..

omit [DecidableEq V] in
theorem Inv.goto {s : ShardCell V} (h : Inv content n s) {i : Nat} {pc : ShardPc V}
    (hpc : ∀ {edit m expected}, pc = .put edit m expected →
      m = edit.apply (expected.elim (PageShardManifest.new n) content)) :
    Inv content n (s.goto i pc) := by
  refine ⟨h.sound, ?_⟩
  intro j edit m expected hj
  rw [goto_pcs] at hj
  split at hj
  · exact hpc hj
  · exact h.pending hj

omit [DecidableEq V] in
theorem elim_content {cell : Option (PageShardManifest × V)} (hs : Sound content cell) :
    (cell.map Prod.snd).elim (PageShardManifest.new n) content
      = cell.elim (PageShardManifest.new n) Prod.fst := by
  cases cell with
  | none => rfl
  | some p => exact hs p.1 p.2 rfl

omit [DecidableEq V] in
theorem loaded_put {edit edit' : ShardEdit} {cell : Option (PageShardManifest × V)}
    {m : PageShardManifest} {expected : Option V} (hs : Sound content cell)
    (h : loaded n edit cell = .put edit' m expected) :
    m = edit'.apply (expected.elim (PageShardManifest.new n) content) := by
  rw [loaded] at h
  split at h
  · cases h
  · cases h
    rw [elim_content hs]

/-- Everything a step can do to the manifest: nothing, or one edit. -/
theorem next_commits {s s' : ShardCell V} {l : Nat × ShardAct V} (hs : Inv content n s)
    (h : next content n s l = some s') : Inv content n s' ∧
      ((s'.commits = s.commits ∧ s'.view n = s.view n) ∨
        ∃ edit, s'.commits = edit :: s.commits ∧ s'.view n = edit.apply (s.view n)) := by
  obtain ⟨i, act⟩ := l
  cases act with
  | call edit =>
    rw [next] at h
    split at h
    · cases h
      exact ⟨hs.goto (fun h => nomatch h), .inl ⟨rfl, rfl⟩⟩
    · cases h
  | load ok =>
    rw [next] at h
    split at h
    · cases h
      refine ⟨hs.goto ?_, .inl ⟨rfl, rfl⟩⟩
      intro edit m expected hpc
      cases ok with
      | true => exact loaded_put hs.sound hpc
      | false => cases hpc
    · cases h
  | stop =>
    cases h
    exact ⟨hs.goto (fun h => nomatch h), .inl ⟨rfl, rfl⟩⟩
  | put io =>
    rw [next] at h
    split at h
    · rename_i edit m expected hpc
      split at h
      · cases h
      · rename_i cell r hput
        cases h
        have hm := hs.pending hpc
        have hpend : ∀ {j edit' m' expected'},
            Function.update s.pcs i (if r matches .conflict then .load edit else .idle) j
              = .put edit' m' expected' →
            m' = edit'.apply (expected'.elim (PageShardManifest.new n) content) := by
          intro j edit' m' expected' hj
          rw [Function.update_apply] at hj
          split at hj
          · split at hj <;> cases hj
          · exact hs.pending hj
        rcases putIfMatch_swap hput with ⟨tok, hexp, rfl, hc, hio⟩ | ⟨rfl, hr, hio⟩
        · refine ⟨⟨?_, hpend⟩, .inr ⟨edit, ?_, ?_⟩⟩
          · intro m' v' h'
            cases h'
            exact hc
          · have hl : s.lands expected io = true := by
              rcases hio with ⟨rfl, -⟩ | ⟨rfl, -⟩ <;> simpa [lands] using hexp
            rw [hl]
            rfl
          · show m = edit.apply (s.view n)
            rw [hm, ← hexp, elim_content hs.sound, view]
        · refine ⟨⟨hs.sound, hpend⟩, .inl ⟨?_, rfl⟩⟩
          have hl : s.lands expected io = false := by
            rcases hio with rfl | hne
            · rfl
            · cases io with
              | fail => rfl
              | reply tok => simpa [lands] using hne
              | lost tok => simpa [lands] using hne
          rw [hl]
          rfl
    · cases h

/-- A run takes the manifest through the edits that landed, in order. -/
theorem run_commits {s s' : ShardCell V} {ls : List (Nat × ShardAct V)} (hs : Inv content n s)
    (h : run (next content n) s ls = some s') :
    Inv content n s' ∧ ∃ edits, s'.commits = edits ++ s.commits ∧
      s'.view n = edits.foldr (fun edit m => edit.apply m) (s.view n) := by
  induction ls generalizing s with
  | nil =>
    cases h
    exact ⟨hs, [], rfl, rfl⟩
  | cons l ls ih =>
    obtain ⟨s₁, h1, h2⟩ := run_cons_some h
    obtain ⟨hs1, hstep⟩ := next_commits hs h1
    obtain ⟨hs', edits, hcom, hview⟩ := ih hs1 h2
    refine ⟨hs', ?_⟩
    rcases hstep with ⟨hc, hv⟩ | ⟨edit, hc, hv⟩
    · exact ⟨edits, by rw [hcom, hc], by rw [hview, hv]⟩
    · refine ⟨edits ++ [edit], ?_, ?_⟩
      · rw [hcom, hc, List.append_assoc, List.singleton_append]
      · rw [hview, hv, List.foldr_append]
        rfl

end ShardCell

/-! ## The edits -/

/-- The names an edit may take off the list. -/
def ShardEdit.retires : ShardEdit → List LayerName
  | .swap retire _ _ _ => retire
  | _ => []

/-- A horizon that is not before another; none is before every other. -/
def HorizonLe (a b : Option Lsn) : Prop := ∀ h, a = some h → ∃ h', b = some h' ∧ h ≤ h'

/-- No owner has two entries of one name. -/
def UniquePerOwner (m : PageShardManifest) : Prop :=
  (m.layers.map fun e => (e.owner, e.name)).Nodup

namespace PageShardManifest

theorem newly_fresh {es : List LayerEntry} : ∀ {names : List LayerName} {e : LayerEntry},
    e ∈ newly names es → e.name ∉ names := by
  induction es with
  | nil => exact fun h => nomatch h
  | cons e es ih =>
    intro names e' h
    rw [newly] at h
    split at h
    · exact ih h
    · rename_i hn
      rcases List.mem_cons.mp h with rfl | h
      · exact hn
      · exact fun hc => ih h (.tail _ hc)

theorem newly_nodup {es : List LayerEntry} : ∀ {names : List LayerName},
    ((newly names es).map LayerEntry.name).Nodup := by
  induction es with
  | nil => exact List.nodup_nil
  | cons e es ih =>
    intro names
    rw [newly]
    split
    · exact ih
    · refine List.nodup_cons.mpr ⟨?_, ih⟩
      intro hmem
      obtain ⟨e', he', hname⟩ := List.mem_map.mp hmem
      exact newly_fresh he' (hname ▸ List.mem_cons_self)

theorem unique_append_newly {ls es : List LayerEntry}
    (h : (ls.map fun e => (e.owner, e.name)).Nodup) :
    ((ls ++ newly (ls.map LayerEntry.name) es).map fun e => (e.owner, e.name)).Nodup := by
  rw [List.map_append]
  refine List.nodup_append.mpr ⟨h, ?_, ?_⟩
  · have hnames : ((newly (ls.map LayerEntry.name) es).map fun e => (e.owner, e.name)).map Prod.snd
        = (newly (ls.map LayerEntry.name) es).map LayerEntry.name := by
      rw [List.map_map]
      rfl
    exact List.Nodup.of_map Prod.snd (hnames ▸ newly_nodup)
  · intro a ha b hb hab
    obtain ⟨e, he, rfl⟩ := List.mem_map.mp ha
    obtain ⟨e', he', rfl⟩ := List.mem_map.mp hb
    refine newly_fresh he' ?_
    rw [← (Prod.mk.injEq .. |>.mp hab).2]
    exact List.mem_map_of_mem he

/-- A list of entries, again, where some of what it listed the last time is
off the list: it lists that. -/
theorem newly_again (p : LayerName → Bool) {es : List LayerEntry} : ∀ {names : List LayerName},
    newly (names ++ ((newly names es).filter fun e => p e.name).map LayerEntry.name) es
      = (newly names es).filter fun e => !p e.name := by
  induction es with
  | nil => exact rfl
  | cons e es ih =>
    intro names
    by_cases hn : e.name ∈ names
    · rw [newly, if_pos (List.mem_append_left _ hn), newly, if_pos hn]
      exact ih
    · have hold : newly names (e :: es) = e :: newly (e.name :: names) es := by
        rw [newly, if_neg hn]
      rw [hold]
      cases hp : p e.name with
      | true =>
        rw [List.filter_cons_of_pos (by exact hp), List.filter_cons_of_neg (by simp [hp]), newly,
          if_pos (List.mem_append_right _ (List.mem_map_of_mem List.mem_cons_self)), ← ih]
        refine newly_congr fun x => ?_
        simp only [List.map_cons, List.mem_append, List.mem_cons]
        tauto
      | false =>
        have hout : e.name ∉ names ++
            ((newly (e.name :: names) es).filter fun e => p e.name).map LayerEntry.name := by
          rw [List.mem_append]
          rintro (h | h)
          · exact hn h
          · obtain ⟨e', he', hname⟩ := List.mem_map.mp h
            exact newly_fresh (List.mem_filter.mp he').1 (hname ▸ List.mem_cons_self)
        rw [List.filter_cons_of_neg (by simp [hp]), List.filter_cons_of_pos (by simp [hp]), newly,
          if_neg hout, ← ih]
        rfl

end PageShardManifest

namespace ShardEdit

open PageShardManifest

theorem dcl_le (edit : ShardEdit) (m : PageShardManifest) :
    m.diskConsistentLsn ≤ (edit.apply m).diskConsistentLsn := by
  cases edit with
  | publish e upto => exact le_max_left ..
  | advance lsn => exact le_max_left ..
  | swap retire add covers horizon =>
    rw [apply, swapLayers_eq]

theorem horizon_le (edit : ShardEdit) (m : PageShardManifest) :
    HorizonLe m.horizon (edit.apply m).horizon := by
  intro h hm
  cases edit with
  | publish e upto =>
    rw [apply, publishLayer, list_eq]
    exact ⟨h, hm, le_rfl⟩
  | advance lsn => exact ⟨h, hm, le_rfl⟩
  | swap retire add covers horizon =>
    rw [apply, swapLayers_eq]
    cases horizon with
    | none => exact ⟨h, hm, le_rfl⟩
    | some at_ => exact ⟨max h at_, by simp [hm], le_max_left ..⟩

/-- An entry stays unless the edit names it. -/
theorem keeps {edit : ShardEdit} {m : PageShardManifest} {e : LayerEntry} (h : e ∈ m.layers)
    (hn : e.name ∉ edit.retires) : e ∈ (edit.apply m).layers := by
  cases edit with
  | publish e' upto =>
    rw [apply, publishLayer, list_eq]
    exact List.mem_append_left _ h
  | advance lsn => exact h
  | swap retire add covers horizon =>
    rw [apply, swapLayers_eq]
    exact List.mem_append_left _ (List.mem_filter.mpr ⟨h, by simpa [retires] using hn⟩)

theorem unique {edit : ShardEdit} {m : PageShardManifest} (h : UniquePerOwner m) :
    UniquePerOwner (edit.apply m) := by
  cases edit with
  | publish e upto =>
    rw [apply, publishLayer, list_eq]
    exact unique_append_newly h
  | advance lsn => exact h
  | swap retire add covers horizon =>
    rw [apply, swapLayers_eq]
    exact unique_append_newly (h.sublist ((List.filter_sublist ..).map _))

/-- When the same edit once more changes nothing: of the entries a swap
newly lists, those whose names it also retires come last. -/
def Reruns (m : PageShardManifest) : ShardEdit → Prop
  | .swap retire add _ _ =>
    (newly ((m.layers.filter fun l => ¬ l.name ∈ retire).map LayerEntry.name) add).Pairwise
      fun a b => a.name ∈ retire → b.name ∈ retire
  | _ => True

end ShardEdit

theorem filter_append_filter_not {α : Type} (p : α → Bool) (l : List α) :
    l.filter p ++ l.filter (fun a => !p a) = l
      ↔ l.Pairwise fun a b => p a = false → p b = false := by
  induction l with
  | nil => exact iff_of_true rfl List.Pairwise.nil
  | cons a l ih =>
    rw [List.pairwise_cons, ← ih]
    cases hp : p a with
    | true => simp [hp]
    | false =>
      have hall : (∀ b ∈ l, p b = false) ↔ l.filter p = [] := by
        simp [List.filter_eq_nil_iff]
      rw [List.filter_cons_of_neg (by simp [hp]), List.filter_cons_of_pos (by simp [hp])]
      simp only [forall_const]
      rw [hall]
      constructor
      · intro h
        cases hf : l.filter p with
        | nil =>
          rw [hf, List.nil_append] at h
          exact ⟨rfl, by rw [List.nil_append]; exact (List.cons.inj h).2⟩
        | cons b bs =>
          rw [hf, List.cons_append] at h
          have hb : p b = true := (List.mem_filter.mp (hf ▸ List.mem_cons_self)).2
          rw [(List.cons.inj h).1, hp] at hb
          cases hb
      · rintro ⟨hf, h⟩
        rw [hf, List.nil_append] at h ⊢
        rw [h]

namespace ShardEdit

open PageShardManifest

theorem publishLayer_again (m : PageShardManifest) (e : LayerEntry) (upto : Lsn) :
    (m.publishLayer e upto).publishLayer e upto = m.publishLayer e upto := by
  have hlisted : ((m.publishLayer e upto).list e) = m.publishLayer e upto := by
    rw [PageShardManifest.list, if_pos]
    rw [publishLayer, PageShardManifest.list]
    split
    · assumption
    · simp
  rw [publishLayer, hlisted]
  simp [publishLayer]

theorem swapLayers_again (m : PageShardManifest) (retire : List LayerName)
    (add : List LayerEntry) (covers : Option Nat) (horizon : Option Lsn) :
    (m.swapLayers retire add covers horizon).swapLayers retire add covers horizon
        = m.swapLayers retire add covers horizon
      ↔ (ShardEdit.swap retire add covers horizon).Reruns m := by
  have hkeep : ((m.layers.filter fun l => ¬ l.name ∈ retire).filter fun l => ¬ l.name ∈ retire)
      = m.layers.filter fun l => ¬ l.name ∈ retire := by
    rw [List.filter_filter]
    simp
  have hnewly := @newly_again (fun x => decide ¬ x ∈ retire) add
    ((m.layers.filter fun l => ¬ l.name ∈ retire).map LayerEntry.name)
  have hpair := filter_append_filter_not (fun e : LayerEntry => decide ¬ e.name ∈ retire)
    (newly ((m.layers.filter fun l => ¬ l.name ∈ retire).map LayerEntry.name) add)
  simp only [decide_eq_false_iff_not, not_not] at hpair
  rw [swapLayers_eq, swapLayers_eq m, PageShardManifest.mk.injEq, List.filter_append, hkeep,
    List.map_append, hnewly, List.append_assoc, List.append_cancel_left_eq, Reruns, hpair]
  constructor
  · exact fun h => h.2.2.2.1
  · intro h
    refine ⟨rfl, rfl, rfl, h, ?_, ?_⟩
    · cases covers <;> rfl
    · cases horizon with
      | none => rfl
      | some at_ => cases m.horizon <;> simp

theorem apply_again (edit : ShardEdit) (m : PageShardManifest) :
    edit.apply (edit.apply m) = edit.apply m ↔ edit.Reruns m := by
  cases edit with
  | publish e upto => exact iff_of_true (publishLayer_again m e upto) trivial
  | advance lsn => exact iff_of_true (by simp [apply, advanceConsistent]) trivial
  | swap retire add covers horizon => exact swapLayers_again m retire add covers horizon

end ShardEdit

/-! ## Runs -/

theorem foldr_apply_keeps {edits : List ShardEdit} {m : PageShardManifest} {e : LayerEntry}
    (h : e ∈ m.layers) : e ∈ (edits.foldr (fun edit m => edit.apply m) m).layers
      ∨ ∃ edit ∈ edits, e.name ∈ edit.retires := by
  induction edits with
  | nil => exact .inl h
  | cons edit edits ih =>
    rcases ih with hin | ⟨edit', hmem, hn⟩
    · by_cases hn : e.name ∈ edit.retires
      · exact .inr ⟨edit, List.mem_cons_self, hn⟩
      · exact .inl (ShardEdit.keeps hin hn)
    · exact .inr ⟨edit', .tail _ hmem, hn⟩

theorem foldr_apply_advances (edits : List ShardEdit) (m : PageShardManifest) :
    m.diskConsistentLsn ≤ (edits.foldr (fun edit m => edit.apply m) m).diskConsistentLsn
      ∧ HorizonLe m.horizon (edits.foldr (fun edit m => edit.apply m) m).horizon
      ∧ (UniquePerOwner m → UniquePerOwner (edits.foldr (fun edit m => edit.apply m) m)) := by
  induction edits with
  | nil => exact ⟨le_rfl, fun h hm => ⟨h, hm, le_rfl⟩, id⟩
  | cons edit edits ih =>
    obtain ⟨hdcl, hhor, hu⟩ := ih
    refine ⟨hdcl.trans (edit.dcl_le _), ?_, fun h => ShardEdit.unique (hu h)⟩
    intro h hm
    obtain ⟨h₁, hm1, hle1⟩ := hhor h hm
    obtain ⟨h₂, hm2, hle2⟩ := edit.horizon_le _ h₁ hm1
    exact ⟨h₂, hm2, hle1.trans hle2⟩

namespace ShardCell

variable {V : Type} [DecidableEq V] (content : V → PageShardManifest) (n : Nat)

/-- A call that runs with nobody next to it and commits. -/
def Called (s : ShardCell V) (i : Nat) (edit : ShardEdit) (s' : ShardCell V) : Prop :=
  ∃ io, run (next content n) s [(i, .call edit), (i, .load true), (i, .put io)] = some s'
    ∧ s'.commits = edit :: s.commits

variable {content n}

theorem Called.view {s s' : ShardCell V} {i : Nat} {edit : ShardEdit} (hs : Inv content n s)
    (h : Called content n s i edit s') : Inv content n s' ∧ s'.view n = edit.apply (s.view n) := by
  obtain ⟨io, hrun, hcom⟩ := h
  obtain ⟨hs', edits, hcom', hview⟩ := run_commits hs hrun
  rw [hcom] at hcom'
  have hedits : edits = [edit] := by
    have h1 : [edit] ++ s.commits = edits ++ s.commits := hcom'
    exact (List.append_cancel_right h1).symm
  rw [hedits] at hview
  exact ⟨hs', hview⟩

/-- Over every interleaving of callers, the flush point and the horizon only
move forward, a layer leaves the list only when a swap that landed names it,
and no owner has a name twice. A call that committed and runs once more
changes nothing exactly when, of the entries it newly listed, those whose
names it retired come last. -/
theorem shard_manifest_laws {s₀ s : ShardCell V} {ls₀ : List (Nat × ShardAct V)}
    (hidle : ∀ i, s₀.pcs i = .idle) (hsound : Sound content s₀.cell)
    (hunique : UniquePerOwner (s₀.view n)) (h₀ : run (next content n) s₀ ls₀ = some s) :
    (∀ ls s', run (next content n) s ls = some s' →
      (s.view n).diskConsistentLsn ≤ (s'.view n).diskConsistentLsn
      ∧ HorizonLe (s.view n).horizon (s'.view n).horizon
      ∧ UniquePerOwner (s'.view n)
      ∧ ∃ edits, s'.commits = edits ++ s.commits
        ∧ ∀ e ∈ (s.view n).layers,
            e ∈ (s'.view n).layers ∨ ∃ edit ∈ edits, e.name ∈ edit.retires)
    ∧ ∀ i j edit s₁ s₂, Called content n s i edit s₁ → Called content n s₁ j edit s₂ →
        (s₂.view n = s₁.view n ↔ edit.Reruns (s.view n)) := by
  have hinv₀ : Inv content n s₀ := ⟨hsound, fun {i} _ _ _ hi => by rw [hidle i] at hi; cases hi⟩
  obtain ⟨hinv, edits₀, -, hview₀⟩ := run_commits hinv₀ h₀
  have hu : UniquePerOwner (s.view n) := by
    rw [hview₀]
    exact (foldr_apply_advances edits₀ _).2.2 hunique
  constructor
  · intro ls s' h
    obtain ⟨-, edits, hcom, hview⟩ := run_commits hinv h
    obtain ⟨hdcl, hhor, hkeep⟩ := foldr_apply_advances edits (s.view n)
    rw [hview]
    exact ⟨hdcl, hhor, hkeep hu, edits, hcom, fun e he => foldr_apply_keeps he⟩
  · intro i j edit s₁ s₂ h1 h2
    obtain ⟨hinv1, hv1⟩ := h1.view hinv
    obtain ⟨-, hv2⟩ := h2.view hinv1
    rw [hv2, hv1]
    exact edit.apply_again (s.view n)

/-! A shard with one layer, over a store whose versions are the contents. -/

def soleKey : LayerKey := .page 1663 5 90 0 0

def soleEntry : LayerEntry := ⟨.delta soleKey soleKey 1 2, 10, none, none⟩

def mergedEntry : LayerEntry := ⟨.image soleKey soleKey 2, 20, none, none⟩

def soleCell : ShardCell PageShardManifest := ⟨none, fun _ => .idle, []⟩

/-- Publish `soleEntry`, and publish it again. -/
theorem shard_manifest_laws_publish :
    ∃ s₁ s₂, Called id 0 soleCell 0 (.publish soleEntry 2) s₁
      ∧ Called id 0 s₁ 1 (.publish soleEntry 2) s₂ ∧ s₂.view 0 = s₁.view 0 := by
  let m : PageShardManifest := ⟨1, 0, 2, [soleEntry], none, none⟩
  let s₁ : ShardCell PageShardManifest :=
    ⟨some (m, m), Function.update (Function.update (Function.update soleCell.pcs 0
      (.load (.publish soleEntry 2))) 0 (.put (.publish soleEntry 2) m none)) 0 .idle,
      [.publish soleEntry 2]⟩
  have h1 : Called id 0 soleCell 0 (.publish soleEntry 2) s₁ := ⟨.reply m, rfl, rfl⟩
  have h2 : Called id 0 s₁ 1 (.publish soleEntry 2)
      ⟨some (m, m), Function.update (Function.update (Function.update s₁.pcs 1
        (.load (.publish soleEntry 2))) 1 (.put (.publish soleEntry 2) m (some m))) 1 .idle,
        [.publish soleEntry 2, .publish soleEntry 2]⟩ := ⟨.reply m, rfl, rfl⟩
  have hsound : Sound id soleCell.cell := fun _ _ h => nomatch h
  have h₀ : run (next id 0) soleCell [] = some soleCell := rfl
  have hlaws := shard_manifest_laws (fun _ => rfl) hsound List.nodup_nil h₀
  exact ⟨_, _, h1, h2, (hlaws.2 0 1 _ _ _ h1 h2).mpr trivial⟩

/-- A swap that retires the name of an output it lists first: its rerun
moves that output behind the other one. -/
theorem swap_again_reorders :
    ¬ ∀ (ls : List (Nat × ShardAct PageShardManifest)) (s s₁ s₂ : ShardCell PageShardManifest)
      (edit : ShardEdit), run (next id 0) soleCell ls = some s → Called id 0 s 0 edit s₁ →
      Called id 0 s₁ 0 edit s₂ → s₂.view 0 = s₁.view 0 := by
  intro hclaim
  let edit : ShardEdit := .swap [soleEntry.name] [soleEntry, mergedEntry] none none
  let m₁ : PageShardManifest := ⟨1, 0, 0, [soleEntry, mergedEntry], none, none⟩
  let m₂ : PageShardManifest := ⟨1, 0, 0, [mergedEntry, soleEntry], none, none⟩
  let pcs₁ := Function.update (Function.update (Function.update soleCell.pcs 0 (.load edit)) 0
    (.put edit m₁ none)) 0 .idle
  let pcs₂ := Function.update (Function.update (Function.update pcs₁ 0 (.load edit)) 0
    (.put edit m₂ (some m₁))) 0 .idle
  have h1 : Called id 0 soleCell 0 edit ⟨some (m₁, m₁), pcs₁, [edit]⟩ := ⟨.reply m₁, rfl, rfl⟩
  have h2 : Called id 0 ⟨some (m₁, m₁), pcs₁, [edit]⟩ 0 edit
      ⟨some (m₂, m₂), pcs₂, [edit, edit]⟩ := ⟨.reply m₂, rfl, rfl⟩
  have heq : m₂ = m₁ := hclaim [] _ _ _ edit rfl h1 h2
  exact absurd heq (by decide)

end ShardCell

end Zou
