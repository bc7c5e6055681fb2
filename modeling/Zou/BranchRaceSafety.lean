import Mathlib.Data.List.Induction
import Zou.BranchRace
import Zou.BranchReads

/-!
# The horizon of a branch taken among commits

A branch asks every shard for its horizon and then loads each again to copy
it. A swap that raises a horizon in between is not asked about, so the
child's copy may have a horizon above the branch point. Where no commit does
that to a shard that was asked and is not yet copied, a branch that returns
has copied every shard manifest its parent had when it began: each copy is
the cut of a manifest the parent had at some moment of the branch, and its
horizon is at or below the branch point.
-/

namespace Zou

open Store Trace

/-- The child a branch is making. -/
def BranchPc.child? : BranchPc → Option Manifest
  | .list child _ | .check child .. | .copy child .. | .put child .. | .land child
  | .ended (.ok child) => some child
  | .parent | .ended (.error _) => none

/-- The shards that were asked for their horizon and are not loaded again
yet. -/
def BranchPc.waiting : BranchPc → List Nat
  | .check _ keys n ns => keys.filter fun k => k ∉ n :: ns
  | .copy _ n ns => n :: ns
  | .put _ _ _ ns => ns
  | _ => []

/-- The shards whose copies are not sent yet, once they are listed. -/
def BranchPc.left : BranchPc → Option (List Nat)
  | .check _ keys _ _ => some keys
  | .copy _ n ns => some (n :: ns)
  | .put _ p _ ns => some (p.shard :: ns)
  | .land _ | .ended (.ok _) => some []
  | _ => none

def BranchPc.isEnded : BranchPc → Bool
  | .ended _ => true
  | _ => false

/-- The horizon a commit brings. -/
def ShardEdit.horizon : ShardEdit → Option Lsn
  | .swap _ _ _ horizon => horizon
  | _ => none

namespace BranchRace

variable {B : Type}

/-- No commit brings a shard between its two loads above the branch point. -/
def Quiet (s : BranchRace B) : BranchAct B → Prop
  | .commit n edit => ∀ child ∈ s.pc.child?, ∀ h ∈ edit.horizon,
      n ∈ s.pc.waiting → h ≤ branchPoint child
  | _ => True

instance : ∀ (s : BranchRace B) (l : BranchAct B), Decidable (Quiet s l)
  | s, .commit n edit => inferInstanceAs (Decidable (∀ child ∈ s.pc.child?, ∀ h ∈ edit.horizon,
      n ∈ s.pc.waiting → h ≤ branchPoint child))
  | _, .request _ | _, .doc .. => isTrue trivial

section

variable {c : Codec B} {src dst : String} {atLsn : Option Lsn} {now : Nat}

/-- A shard can be served at `at_`. -/
def ServedAt (c : Codec B) (docs : List (Key × B)) (src : String) (at_ : Lsn) (n : Nat) : Prop :=
  ∀ m, shardAt c docs src n = .ok (some m) → ∀ h, m.horizon = some h → h ≤ at_

/-- A copy that is the cut of a manifest the parent had, `Seen`, with a
horizon the child can live with. -/
structure Cut (src : String) (Seen : PageShardManifest → Prop) (child : Manifest)
    (p : PageShardManifest × PageShardManifest) : Prop where
  seen : Seen p.1
  cut : cutShard src (branchPoint child) p.1 = .ok p.2
  horizon : ∀ h, p.2.horizon = some h → h ≤ branchPoint child

/-- What holds of a branch under way that began over `docs₀`. -/
structure Sound (c : Codec B) (src dst : String) (docs₀ : List (Key × B))
    (Seen : PageShardManifest → Prop) (s : BranchRace B) : Prop where
  named : ShardsNamed c s.docs src
  grows : ∀ k, (get docs₀ k).isSome → (get s.docs k).isSome
  waiting : ∀ child, s.pc.child? = some child → ∀ n ∈ s.pc.waiting,
    ServedAt c s.docs src (branchPoint child) n
  put : ∀ child parent copy ns, s.pc = .put child parent copy ns → Cut src Seen child (parent, copy)
  nodup : ∀ left, s.pc.left = some left → left.Nodup
  early : (match s.pc with | .parent | .list .. | .check .. => True | _ => False) → s.copied = []
  copied : ∀ child, s.pc.child? = some child → ∀ p ∈ s.copied, Cut src Seen child p
    ∧ (∀ left, s.pc.left = some left → p.1.shard ∉ left)
    ∧ (dst ≠ src → get s.docs (.shard dst p.1.shard) = some (c.encode p.2))
  all : ∀ left, s.pc.left = some left → ∀ n, (get docs₀ (.shard src n)).isSome →
    n ∈ left ∨ ∃ p ∈ s.copied, p.1.shard = n
  /-- A branch onto its parent never returns. -/
  itself : dst = src → s.pc.child?.isSome →
    (get s.docs (.manifest dst)).isSome ∧ s.pc.isEnded = false

variable {docs₀ : List (Key × B)} {Seen Seen' : PageShardManifest → Prop} {s s' : BranchRace B}

variable {child : Manifest}

theorem Cut.mono {p : PageShardManifest × PageShardManifest}
    (h : Cut src Seen child p) (hseen : ∀ m, Seen m → Seen' m) : Cut src Seen' child p :=
  ⟨hseen _ h.seen, h.cut, h.horizon⟩

/-! ## Commits and other documents -/

theorem edit_shard (m : PageShardManifest) (edit : ShardEdit) :
    (edit.apply m).shard = m.shard ∧ (edit.apply m).format = m.format := by
  cases edit with
  | publish e upto =>
    simp only [ShardEdit.apply, PageShardManifest.publishLayer, PageShardManifest.list_eq,
      and_self]
  | advance lsn => exact ⟨rfl, rfl⟩
  | swap retire add covers horizon =>
    simp only [ShardEdit.apply, PageShardManifest.swapLayers_eq, and_self]

/-- The horizon after a commit is the one before it or the one it brings. -/
theorem edit_horizon {m : PageShardManifest} {edit : ShardEdit} {h : Lsn}
    (heq : (edit.apply m).horizon = some h) : m.horizon = some h ∨ edit.horizon = some h := by
  cases edit with
  | publish e upto =>
    simp only [ShardEdit.apply, PageShardManifest.publishLayer, PageShardManifest.list_eq] at heq
    exact .inl heq
  | advance lsn => exact .inl heq
  | swap retire add covers horizon =>
    simp only [ShardEdit.apply, PageShardManifest.swapLayers_eq] at heq
    cases horizon with
    | none => exact .inl heq
    | some b =>
      have hmax := Option.some.inj heq
      cases hm : m.horizon with
      | none =>
        rw [hm] at hmax
        exact .inr (congrArg some hmax)
      | some a =>
        rw [hm] at hmax
        rcases max_choice a b with hc | hc
        · exact .inl (congrArg some (hc.symm.trans hmax))
        · exact .inr (congrArg some (hc.symm.trans hmax))

variable (src) in
/-- What a commit leaves of the parent's shard manifests: the others as
they were, and the edit of its own. -/
theorem commit_docs (hc : c.Lawful) (docs : List (Key × B)) (n : Nat) (edit : ShardEdit) :
    let docs' := (Site.commit c ⟨docs, []⟩ src n edit).docs
    docs' = docs ∨ ∃ m, (shardAt c docs src n = .ok (some m)
        ∨ shardAt c docs src n = .ok none ∧ m = .new n)
      ∧ docs' = (.shard src n, c.encode (edit.apply m)) :: docs
      ∧ shardAt c docs' src n = .ok (some (edit.apply m)) := by
  intro docs'
  have hput : ∀ m : PageShardManifest, m.format ≤ pageShardFormat →
      shardAt c ((.shard src n, c.encode (edit.apply m)) :: docs) src n
        = .ok (some (edit.apply m)) := by
    intro m hm
    unfold shardAt
    rw [get_cons_self]
    dsimp only
    unfold Codec.decode
    rw [hc.shard]
    dsimp only
    rw [if_neg (not_lt.mpr ((edit_shard m edit).2.trans_le hm))]
    rfl
  cases hget : get docs (.shard src n) with
  | none =>
    have hload : (Site.mk docs [] : Site B).loadShardOf c src n = .ok none := by
      simp only [Site.loadShardOf, hget]
    have hshard : shardAt c docs src n = .ok none := by simp only [shardAt, hget]
    cases edit with
    | advance lsn => exact .inl (by simp only [docs', Site.commit, hload])
    | publish e upto | swap retire add covers horizon =>
      refine .inr ⟨.new n, .inr ⟨hshard, rfl⟩, ?_, ?_⟩
      · simp only [docs', Site.commit, hload, Option.getD_none]
      · simp only [docs', Site.commit, hload, Option.getD_none]
        exact hput _ (Nat.le_succ 1)
  | some data =>
    cases hdec : c.decode data with
    | error e =>
      have hload : (Site.mk docs [] : Site B).loadShardOf c src n = .error e := by
        simp only [Site.loadShardOf, hget, hdec]
        rfl
      exact .inl (by simp only [docs', Site.commit, hload])
    | ok m =>
      have hload : (Site.mk docs [] : Site B).loadShardOf c src n = .ok (some m) := by
        simp only [Site.loadShardOf, hget, hdec]
        rfl
      have hshard : shardAt c docs src n = .ok (some m) := by
        simp only [shardAt, hget, hdec]
        rfl
      have hformat : m.format ≤ pageShardFormat := by
        unfold Codec.decode at hdec
        split at hdec
        · cases hdec
        · split at hdec
          · cases hdec
          · rename_i hle
            cases hdec
            exact not_lt.mp hle
      refine .inr ⟨m, .inl hshard, ?_, ?_⟩
      · cases edit <;> simp only [docs', Site.commit, hload, Option.getD_some]
      · have hdocs : docs' = (.shard src n, c.encode (edit.apply m)) :: docs := by
          cases edit <;> simp only [docs', Site.commit, hload, Option.getD_some]
        rw [hdocs]
        exact hput m hformat

variable {docs : List (Key × B)}

theorem isSome_cons {k k' : Key} {b : B} (h : (get docs k).isSome) :
    (get ((k', b) :: docs) k).isSome := by
  by_cases hk : k = k'
  · rw [hk, get_cons_self]
    rfl
  · rwa [get_cons_ne hk]

variable {n : Nat}

theorem Sound.commit (hc : c.Lawful) (h : Sound c src dst docs₀ Seen s)
    {edit : ShardEdit} (hq : Quiet s (.commit n edit)) :
    Sound c src dst docs₀ Seen { s with docs := (Site.commit c ⟨s.docs, []⟩ src n edit).docs } := by
  rcases commit_docs src hc s.docs n edit with heq | ⟨m, hm, hdocs, hnew⟩
  · rw [heq]
    exact h
  rw [hdocs] at hnew ⊢
  have hother : ∀ {k}, k ≠ n → shardAt c ((.shard src n, c.encode (edit.apply m)) :: s.docs) src k
      = shardAt c s.docs src k := by
    intro k hk
    exact shardAt_congr (get_cons_ne fun heq => hk (Key.shard.inj heq).2)
  have hshard : m.shard = n := by
    rcases hm with hm | ⟨-, rfl⟩
    · exact h.named n m hm
    · rfl
  refine ⟨fun k m' hm' => ?_, fun k hk => isSome_cons (h.grows k hk), fun child hchild k hk m' hm' => ?_,
    h.put, h.nodup, h.early, fun child hchild p hp => ?_, h.all,
    fun heq hpc => (h.itself heq hpc).imp_left isSome_cons⟩
  · by_cases hkn : k = n
    · rw [hkn, hnew] at hm'
      obtain rfl := Option.some.inj (Except.ok.inj hm')
      rw [(edit_shard m edit).1, hshard, hkn]
    · exact h.named k m' (hother hkn ▸ hm')
  · by_cases hkn : k = n
    · rw [hkn, hnew] at hm'
      obtain rfl := Option.some.inj (Except.ok.inj hm')
      intro b hb
      rcases edit_horizon hb with hb | hb
      · rcases hm with hm | ⟨-, rfl⟩
        · exact h.waiting child hchild k hk m (hkn ▸ hm) b hb
        · cases hb
      · exact hq child hchild b hb (hkn ▸ hk)
    · exact h.waiting child hchild k hk m' (hother hkn ▸ hm')
  · obtain ⟨hcut, hleft, hget⟩ := h.copied child hchild p hp
    refine ⟨hcut, hleft, fun hne => ?_⟩
    rw [get_cons_ne fun heq => hne (Key.shard.inj heq).1]
    exact hget hne

theorem Sound.doc (h : Sound c src dst docs₀ Seen s) {key : Key} {data : B}
    (hdst : key.tenant ≠ dst) (hsrc : key.shardOf src = false) :
    Sound c src dst docs₀ Seen { s with docs := (key, data) :: s.docs } := by
  have hother : ∀ k, shardAt c ((key, data) :: s.docs) src k = shardAt c s.docs src k := by
    intro k
    refine shardAt_congr (get_cons_ne ?_)
    rintro rfl
    simp [Key.shardOf] at hsrc
  refine ⟨fun k m hm => h.named k m (hother k ▸ hm), fun k hk => isSome_cons (h.grows k hk),
    fun child hchild k hk m hm => h.waiting child hchild k hk m (hother k ▸ hm), h.put, h.nodup,
    h.early, fun child hchild p hp => ?_, h.all,
    fun heq hpc => (h.itself heq hpc).imp_left isSome_cons⟩
  obtain ⟨hcut, hleft, hget⟩ := h.copied child hchild p hp
  refine ⟨hcut, hleft, fun hne => ?_⟩
  rw [get_cons_ne fun heq => hdst (by rw [← heq]; rfl)]
  exact hget hne

/-! ## Requests -/

/-- A request that only reads: the branch goes on, or it is over. -/
theorem answer_read {α : Type} {x : BranchM B α} (hx : Store.ReadOnly x) (s : BranchRace B)
    (ack : Store.Ack) (k : α → BranchPc) :
    (∃ a, (x ⟨s.docs, []⟩).1 = .ok a ∧ s.answer ack x k = { s with pc := k a })
      ∨ ∃ e, s.answer ack x k = { s with pc := .ended (.error e) } := by
  obtain ⟨w', hobjs, ⟨a, ha, hok⟩ | ⟨e, herr⟩⟩ := hx.cases ⟨s.docs, [ack]⟩
  · refine .inl ⟨a, ha, ?_⟩
    unfold answer
    rw [hok]
    exact congrArg (fun docs => { s with docs := docs, pc := k a }) hobjs
  · refine .inr ⟨e, ?_⟩
    unfold answer
    rw [herr]
    exact congrArg (fun docs => { s with docs := docs, pc := .ended (.error e) }) hobjs

theorem Sound.failed {copied : List (PageShardManifest × PageShardManifest)}
    (hnamed : ShardsNamed c docs src) (hgrows : ∀ k, (get docs₀ k).isSome → (get docs k).isSome)
    (e : BranchError) : Sound c src dst docs₀ Seen ⟨docs, .ended (.error e), copied⟩ where
  named := hnamed
  grows := hgrows
  waiting child hchild := by cases hchild
  put child parent copy ns hpc := by cases hpc
  nodup left hleft := by cases hleft
  early hpc := hpc.elim
  copied child hchild := by cases hchild
  all left hleft := by cases hleft
  itself _ hpc := by cases hpc

/-- On to the shards that are left to copy. -/
theorem Sound.copying
    {copied : List (PageShardManifest × PageShardManifest)} {ns : List Nat}
    (hnamed : ShardsNamed c docs src) (hgrows : ∀ k, (get docs₀ k).isSome → (get docs k).isSome)
    (hnodup : ns.Nodup) (hserved : ∀ n ∈ ns, ServedAt c docs src (branchPoint child) n)
    (hcopied : ∀ p ∈ copied, Cut src Seen child p ∧ p.1.shard ∉ ns
      ∧ (dst ≠ src → get docs (.shard dst p.1.shard) = some (c.encode p.2)))
    (hall : ∀ n, (get docs₀ (.shard src n)).isSome → n ∈ ns ∨ ∃ p ∈ copied, p.1.shard = n)
    (hitself : dst = src → (get docs (.manifest dst)).isSome) :
    Sound c src dst docs₀ Seen ⟨docs, .copying child ns, copied⟩ := by
  have hpc : (BranchPc.copying child ns).child? = some child
      ∧ (BranchPc.copying child ns).left = some ns
      ∧ (∀ n ∈ (BranchPc.copying child ns).waiting, n ∈ ns)
      ∧ (BranchPc.copying child ns).isEnded = false := by
    cases ns with
    | nil => exact ⟨rfl, rfl, fun n hn => hn, rfl⟩
    | cons n ns => exact ⟨rfl, rfl, fun n hn => hn, rfl⟩
  refine ⟨hnamed, hgrows, fun child' hchild n hn => ?_, fun child' parent copy ns' hput => ?_,
    fun left hleft => ?_, fun hearly => ?_, fun child' hchild p hp => ?_, fun left hleft => ?_,
    fun heq _ => ⟨hitself heq, hpc.2.2.2⟩⟩
  · cases hpc.1.symm.trans hchild
    exact hserved n (hpc.2.2.1 n hn)
  · cases ns <;> cases hput
  · cases hpc.2.1.symm.trans hleft
    exact hnodup
  · cases ns <;> exact hearly.elim
  · cases hpc.1.symm.trans hchild
    obtain ⟨hcut, hleft, hget⟩ := hcopied p hp
    refine ⟨hcut, fun left hl => ?_, hget⟩
    cases hpc.2.1.symm.trans hl
    exact hleft
  · cases hpc.2.1.symm.trans hleft
    exact hall

/-- On to the shards that are left to ask. -/
theorem Sound.checking {keys ns : List Nat} (hnamed : ShardsNamed c docs src)
    (hgrows : ∀ k, (get docs₀ k).isSome → (get docs k).isSome) (hnodup : keys.Nodup)
    (hserved : ∀ n ∈ keys, n ∉ ns → ServedAt c docs src (branchPoint child) n)
    (hall : ∀ n, (get docs₀ (.shard src n)).isSome → n ∈ keys)
    (hitself : dst = src → (get docs (.manifest dst)).isSome) :
    Sound c src dst docs₀ Seen ⟨docs, .checking child keys ns, []⟩ := by
  cases ns with
  | nil =>
    exact Sound.copying hnamed hgrows hnodup (fun n hn => hserved n hn List.not_mem_nil)
      (fun p hp => by cases hp) (fun n hn => .inl (hall n hn)) hitself
  | cons n ns =>
    refine ⟨hnamed, hgrows, fun child' hchild k hk => ?_, (fun _ _ _ _ hput => by cases hput),
      fun left hleft => ?_, fun _ => rfl, (fun _ _ p hp => by cases hp), fun left hleft k hk => ?_,
      fun heq _ => ⟨hitself heq, rfl⟩⟩
    · cases hchild
      obtain ⟨hmem, hnot⟩ := List.mem_filter.mp hk
      exact hserved k hmem (of_decide_eq_true hnot)
    · cases hleft
      exact hnodup
    · cases hleft
      exact .inl (hall k hk)

theorem manifest_of_loaded {p : Manifest × Nat}
    (h : (loadParent c src dst atLsn now ⟨docs, []⟩).1 = .ok p) :
    (get docs (.manifest src)).isSome := by
  cases hget : get docs (.manifest src) with
  | some data => rfl
  | none =>
    have hnone : (getObj (.manifest src) : BranchM B (Option B)) ⟨docs, []⟩
        = (.ok none, ⟨docs, []⟩) := (Store.read_nil rfl).trans (by rw [hget])
    unfold loadParent currentManifest at h
    rw [Prog.bind_apply, Prog.bind_ok hnone] at h
    cases h

theorem served_of_asked {at_ : Lsn}
    (h : (checkShard c src at_ n ⟨docs, []⟩).1 = .ok ()) : ServedAt c docs src at_ n := by
  intro m hm b hb
  unfold checkShard at h
  rw [Prog.bind_apply, loadShard_quiet rfl, hm] at h
  simp only [Prog.lift_apply, refuseBelow, hb] at h
  split at h
  · cases h
  · rename_i hle
    exact not_lt.mp hle

theorem loaded_copy {at_ : Lsn} {r : Option (PageShardManifest × PageShardManifest)}
    (h : (copyShard c src at_ n ⟨docs, []⟩).1 = .ok r) : shardAt c docs src n = .ok none ∧ r = none
      ∨ ∃ p, shardAt c docs src n = .ok (some p.1) ∧ cutShard src at_ p.1 = .ok p.2
        ∧ r = some p := by
  unfold copyShard at h
  rw [Prog.bind_apply, loadShard_quiet rfl] at h
  cases hshard : shardAt c docs src n with
  | error e =>
    rw [hshard] at h
    cases h
  | ok o =>
    rw [hshard] at h
    cases o with
    | none => exact .inl ⟨rfl, (Except.ok.inj h).symm⟩
    | some parent =>
      dsimp only at h
      rw [Prog.bind_apply] at h
      cases hcut : cutShard src at_ parent with
      | error e =>
        rw [hcut] at h
        cases h
      | ok copy =>
        rw [hcut] at h
        exact .inr ⟨(parent, copy), rfl, hcut, (Except.ok.inj h).symm⟩

theorem copyShard_readOnly (c : Codec B) (src : String) (at_ : Lsn) (n : Nat) :
    Store.ReadOnly (copyShard c src at_ n) :=
  (loadShard_readOnly c src n).bind fun o => by
    cases o with
    | none => exact Store.ReadOnly.pure _
    | some parent => exact (Store.ReadOnly.lift _).bind fun _ => Store.ReadOnly.pure _

variable (dst) in
/-- What the put of a copy leaves of the parent's shard manifests, also when
a tenant is branched onto itself. -/
theorem named_put (hc : c.Lawful) (hnamed : ShardsNamed c docs src)
    {at_ : Lsn} {parent copy : PageShardManifest} (hcut : cutShard src at_ parent = .ok copy) :
    ShardsNamed c ((.shard dst parent.shard, c.encode copy) :: docs) src
      ∧ ∀ n, n ≠ parent.shard → shardAt c ((.shard dst parent.shard, c.encode copy) :: docs) src n
        = shardAt c docs src n := by
  have hother : ∀ n, n ≠ parent.shard →
      shardAt c ((.shard dst parent.shard, c.encode copy) :: docs) src n = shardAt c docs src n :=
    fun n hn => shardAt_congr (get_cons_ne fun heq => hn (Key.shard.inj heq).2)
  refine ⟨fun n m hm => ?_, hother⟩
  by_cases hn : n = parent.shard
  · by_cases hsrc : src = dst
    · subst hsrc hn
      unfold shardAt at hm
      rw [get_cons_self] at hm
      dsimp only at hm
      obtain ⟨hshard, -, hformat, -⟩ := cutShard_ok hcut
      rw [hc.decode_encode hformat] at hm
      obtain rfl := Option.some.inj (Except.ok.inj hm)
      exact hshard
    · refine hnamed n m ?_
      rwa [shardAt_congr (get_cons_ne fun heq => hsrc (Key.shard.inj heq).1)] at hm
  · exact hnamed n m (hother n hn ▸ hm)

theorem Sound.mono (h : Sound c src dst docs₀ Seen s) (hseen : ∀ m, Seen m → Seen' m) :
    Sound c src dst docs₀ Seen' s where
  named := h.named
  grows := h.grows
  waiting := h.waiting
  put child parent copy ns hpc := (h.put child parent copy ns hpc).mono hseen
  nodup := h.nodup
  early := h.early
  copied child hchild p hp := ⟨(h.copied child hchild p hp).1.mono hseen,
    (h.copied child hchild p hp).2⟩
  all := h.all
  itself := h.itself

theorem shardAt_none (h : shardAt c docs src n = .ok none) : get docs (.shard src n) = none := by
  unfold shardAt at h
  split at h
  · rename_i hget
    exact hget
  · rename_i data hget
    cases hd : c.decode data with
    | ok m =>
      rw [hd] at h
      cases h
    | error e =>
      rw [hd] at h
      cases h

section Request

variable {docs : List (Key × B)} {copied : List (PageShardManifest × PageShardManifest)}
  {ack : Store.Ack} {child : Manifest} {n : Nat} {ns : List Nat}

theorem Sound.parent (h : Sound c src dst docs₀ Seen ⟨docs, .parent, copied⟩)
    (hstep : next c src dst atLsn now ⟨docs, .parent, copied⟩ (.request ack) = some s') :
    Sound c src dst docs₀ Seen s' := by
  cases hstep
  obtain rfl : copied = [] := h.early trivial
  rcases answer_read ((currentManifest_readOnly c src).bind fun _ =>
    (Store.ReadOnly.lift _).bind fun _ => Store.ReadOnly.pure _) ⟨docs, .parent, []⟩ ack
    fun p : Manifest × Nat => .list p.1 p.2 with ⟨p, hp, heq⟩ | ⟨e, heq⟩
  · rw [loadParent, heq]
    refine ⟨h.named, h.grows, (fun _ _ n hn => by cases hn), (fun _ _ _ _ hput => by cases hput),
      (fun _ hleft => by cases hleft), fun _ => rfl, (fun _ _ p hp => by cases hp),
      (fun _ hleft => by cases hleft), fun heq _ => ⟨?_, rfl⟩⟩
    subst heq
    exact manifest_of_loaded hp
  · rw [loadParent, heq]
    exact Sound.failed h.named h.grows e

theorem Sound.list {shards : Nat} (h : Sound c src dst docs₀ Seen ⟨docs, .list child shards, copied⟩)
    (hstep : next c src dst atLsn now ⟨docs, .list child shards, copied⟩ (.request ack) = some s') :
    Sound c src dst docs₀ Seen s' := by
  cases hstep
  obtain rfl : copied = [] := h.early trivial
  rcases answer_read (Store.ReadOnly.read .store (shardKeys src shards))
    ⟨docs, .list child shards, []⟩ ack fun keys => .checking child keys keys
    with ⟨keys, hkeys, heq⟩ | ⟨e, heq⟩
  · rw [heq]
    obtain rfl : shardKeys src shards docs = keys := Except.ok.inj hkeys
    exact Sound.checking h.named h.grows (shardKeys_nodup ..) (fun n hn hnot => absurd hn hnot)
      (fun n hn => mem_shardKeys (Option.ne_none_iff_isSome.mpr (h.grows _ hn)))
      fun heq => (h.itself heq rfl).1
  · rw [heq]
    exact Sound.failed h.named h.grows e

theorem Sound.check {keys : List Nat} (h : Sound c src dst docs₀ Seen ⟨docs, .check child keys n ns, copied⟩)
    (hstep : next c src dst atLsn now ⟨docs, .check child keys n ns, copied⟩ (.request ack) = some s') :
    Sound c src dst docs₀ Seen s' := by
  cases hstep
  obtain rfl : copied = [] := h.early trivial
  rcases answer_read ((loadShard_readOnly c src n).bind fun _ => Store.ReadOnly.lift _)
    ⟨docs, .check child keys n ns, []⟩ ack fun _ => .checking child keys ns
    with ⟨u, hasked, heq⟩ | ⟨e, heq⟩
  · rw [checkShard, heq]
    have hn := served_of_asked hasked
    refine Sound.checking h.named h.grows (h.nodup keys rfl) (fun k hk hnot => ?_)
      (fun k hk => ?_) fun heq => (h.itself heq rfl).1
    · by_cases hkn : k = n
      · exact hkn ▸ hn
      · refine h.waiting child rfl k (List.mem_filter.mpr ⟨hk, decide_eq_true ?_⟩)
        simp only [List.mem_cons, not_or]
        exact ⟨hkn, hnot⟩
    · rcases h.all keys rfl k hk with hk | ⟨p, hp, -⟩
      · exact hk
      · cases hp
  · rw [checkShard, heq]
    exact Sound.failed h.named h.grows e

/-- The second load: the shard is gone, or its cut is what the put sends. -/
theorem Sound.copy (h : Sound c src dst docs₀ Seen ⟨docs, .copy child n ns, copied⟩)
    (hnow : ∀ n m, shardAt c docs src n = .ok (some m) → Seen m)
    (hstep : next c src dst atLsn now ⟨docs, .copy child n ns, copied⟩ (.request ack) = some s') :
    Sound c src dst docs₀ Seen s' := by
  cases hstep
  obtain ⟨hn, hns⟩ := List.nodup_cons.mp (h.nodup (n :: ns) rfl)
  rcases answer_read (copyShard_readOnly c src (branchPoint child) n)
    ⟨docs, .copy child n ns, copied⟩ ack (.loaded child ns) with ⟨o, ho, heq⟩ | ⟨e, heq⟩
  · rw [heq]
    rcases loaded_copy ho with ⟨hnone, rfl⟩ | ⟨p, hsome, hcut, rfl⟩
    · refine Sound.copying h.named h.grows hns
        (fun k hk => h.waiting child rfl k (.tail _ hk)) (fun p hp => ?_)
        (fun k hk => ?_) fun heq => (h.itself heq rfl).1
      · obtain ⟨hp, hleft, hget⟩ := h.copied child rfl p hp
        exact ⟨hp, fun hmem => hleft _ rfl (.tail _ hmem), hget⟩
      · refine (h.all _ rfl k hk).imp_left fun hmem => ?_
        rcases List.mem_cons.mp hmem with rfl | hmem
        · have hthere := h.grows _ hk
          rw [shardAt_none hnone] at hthere
          cases hthere
        · exact hmem
    · have hshard : p.1.shard = n := h.named n p.1 hsome
      have hhorizon : p.2.horizon = p.1.horizon := by
        obtain ⟨layers, -, hp⟩ := of_map_ok hcut
        rw [← hp]
      refine ⟨h.named, h.grows, fun child' hchild k hk => ?_, fun child' parent copy ns' hput => ?_,
        fun left hleft => ?_, fun hearly => hearly.elim, fun child' hchild q hq => ?_,
        fun left hleft k hk => ?_, fun heq _ => ⟨(h.itself heq rfl).1, rfl⟩⟩
      · cases hchild
        exact h.waiting child rfl k (.tail _ hk)
      · obtain ⟨rfl, rfl, rfl, -⟩ := BranchPc.put.inj hput
        refine ⟨hnow n _ hsome, hcut, fun b hb => ?_⟩
        exact h.waiting child rfl n List.mem_cons_self _ hsome b (hhorizon ▸ hb)
      · cases hleft
        rw [hshard]
        exact List.nodup_cons.mpr ⟨hn, hns⟩
      · cases hchild
        obtain ⟨hq, hleft, hget⟩ := h.copied child rfl q hq
        refine ⟨hq, fun left hl => ?_, hget⟩
        cases hl
        rw [hshard]
        exact hleft _ rfl
      · cases hleft
        rw [hshard]
        exact h.all _ rfl k hk
  · rw [heq]
    exact Sound.failed h.named h.grows e

/-- The put of a copy, which may land also where it is not answered. -/
theorem Sound.sent (hc : c.Lawful) {parent copy : PageShardManifest}
    (h : Sound c src dst docs₀ Seen ⟨docs, .put child parent copy ns, copied⟩)
    (hstep : next c src dst atLsn now ⟨docs, .put child parent copy ns, copied⟩ (.request ack) = some s') :
    Sound c src dst docs₀ Seen s' := by
  cases hstep
  have hcut := h.put child parent copy ns rfl
  obtain ⟨hnamed, hother⟩ := named_put dst hc h.named hcut.cut
  obtain ⟨hn, hns⟩ := List.nodup_cons.mp (h.nodup (parent.shard :: ns) rfl)
  obtain ⟨w, ⟨hput, hw⟩ | ⟨hput, hw⟩⟩ := Store.put_cases BranchError.store
    (.shard dst parent.shard) (c.encode copy) ⟨docs, [ack]⟩
  · unfold answer
    rw [hput]
    dsimp only
    rw [hw]
    refine Sound.copying hnamed (fun k hk => isSome_cons (h.grows k hk)) hns
      (fun k hk m hm => h.waiting child rfl k hk m ?_) (fun p hp => ?_) (fun k hk => ?_)
      fun heq => isSome_cons (h.itself heq rfl).1
    · rwa [hother k fun heq => hn (heq ▸ hk)] at hm
    · rcases List.mem_cons.mp hp with rfl | hp
      · exact ⟨hcut, hn, fun _ => get_cons_self ..⟩
      · obtain ⟨hp, hleft, hget⟩ := h.copied child rfl p hp
        have hnot := hleft _ rfl
        refine ⟨hp, fun hmem => hnot (.tail _ hmem), fun hne => ?_⟩
        rw [get_cons_ne fun heq => hnot (List.mem_cons.mpr (.inl (Key.shard.inj heq).2))]
        exact hget hne
    · rcases h.all _ rfl k hk with hmem | ⟨p, hp, hpk⟩
      · rcases List.mem_cons.mp hmem with rfl | hmem
        · exact .inr ⟨_, List.mem_cons_self, rfl⟩
        · exact .inl hmem
      · exact .inr ⟨p, .tail _ hp, hpk⟩
  · unfold answer
    rw [hput]
    dsimp only
    rcases hw with hw | hw
    · rw [hw]
      exact Sound.failed hnamed (fun k hk => isSome_cons (h.grows k hk)) _
    · rw [hw]
      exact Sound.failed h.named h.grows _

theorem Sound.land (h : Sound c src dst docs₀ Seen ⟨docs, .land child, copied⟩)
    (hstep : next c src dst atLsn now ⟨docs, .land child, copied⟩ (.request ack) = some s') :
    Sound c src dst docs₀ Seen s' := by
  cases hstep
  have hother : ∀ k, shardAt c ((.manifest dst, c.toJson child) :: docs) src k
      = shardAt c docs src k := fun k => shardAt_congr (get_cons_ne fun heq => by cases heq)
  have hnamed : ShardsNamed c ((.manifest dst, c.toJson child) :: docs) src :=
    fun k m hm => h.named k m (hother k ▸ hm)
  have hgrows : ∀ k, (get docs₀ k).isSome →
      (get ((.manifest dst, c.toJson child) :: docs) k).isSome :=
    fun k hk => isSome_cons (h.grows k hk)
  unfold answer
  rcases hput : publishChild c dst child ⟨docs, [ack]⟩ with ⟨r, w⟩
  cases r with
  | ok u =>
    obtain ⟨hvacant, hw⟩ := Store.of_putIfAbsent_ok hput
    dsimp only
    rw [hw]
    refine ⟨hnamed, hgrows, (fun _ _ n hn => by cases hn), (fun _ _ _ _ hput => by cases hput),
      fun left hleft => ?_, fun hearly => hearly.elim, fun child' hchild p hp => ?_,
      fun left hleft k hk => ?_, fun heq _ => ?_⟩
    · cases hleft
      exact List.nodup_nil
    · cases hchild
      obtain ⟨hp, hleft, hget⟩ := h.copied child rfl p hp
      refine ⟨hp, fun left hl => hleft left hl, fun hne => ?_⟩
      rw [get_cons_ne fun heq => by cases heq]
      exact hget hne
    · exact h.all left hleft k hk
    · have hthere := (h.itself heq rfl).1
      rw [show get docs (.manifest dst) = none from hvacant] at hthere
      cases hthere
  | error e =>
    dsimp only
    rcases Store.putIfAbsent_cases BranchError.store (.destinationExists dst) (.manifest dst)
      (c.toJson child) ⟨docs, [ack]⟩ with hw | ⟨-, hw⟩
    · rw [← publishChild, hput] at hw
      rw [show w.objs = docs from hw]
      exact Sound.failed h.named h.grows e
    · rw [← publishChild, hput] at hw
      rw [show w.objs = _ from hw]
      exact Sound.failed hnamed hgrows e

theorem Sound.request (hc : c.Lawful) (h : Sound c src dst docs₀ Seen s)
    (hnow : ∀ n m, shardAt c s.docs src n = .ok (some m) → Seen m)
    (hstep : next c src dst atLsn now s (.request ack) = some s') :
    Sound c src dst docs₀ Seen s' := by
  obtain ⟨docs, pc, copied⟩ := s
  cases pc with
  | parent => exact h.parent hstep
  | list child shards => exact h.list hstep
  | check child keys n ns => exact h.check hstep
  | copy child n ns => exact h.copy hnow hstep
  | put child parent copy ns => exact h.sent hc hstep
  | land child => exact h.land hstep
  | ended r => cases hstep

end Request

/-- The parent had this manifest at some moment of the run. -/
def SeenIn (c : Codec B) (src dst : String) (atLsn : Option Lsn) (now : Nat)
    (docs₀ : List (Key × B)) (ls : List (BranchAct B)) (m : PageShardManifest) : Prop :=
  ∃ earlier s, earlier <+: ls
    ∧ run (next c src dst atLsn now) ⟨docs₀, .parent, []⟩ earlier = some s
    ∧ shardAt c s.docs src m.shard = .ok (some m)

theorem run_sound (hc : c.Lawful) (hnamed : ShardsNamed c docs₀ src) (ls : List (BranchAct B)) :
    ∀ s, run (next c src dst atLsn now) ⟨docs₀, .parent, []⟩ ls = some s →
      Meets (next c src dst atLsn now) Quiet ⟨docs₀, .parent, []⟩ ls →
      Sound c src dst docs₀ (SeenIn c src dst atLsn now docs₀ ls) s := by
  induction ls using List.reverseRecOn with
  | nil =>
    intro s hrun _
    cases hrun
    exact ⟨hnamed, fun _ h => h, (fun _ h => by cases h), (fun _ _ _ _ h => by cases h),
      (fun _ h => by cases h), fun _ => rfl, (fun _ h => by cases h), (fun _ h => by cases h),
      fun _ h => by cases h⟩
  | append_singleton ls l ih =>
    intro s hrun hmeets
    rw [run_append] at hrun
    obtain ⟨s₁, h₁, hlast⟩ := Option.bind_eq_some_iff.mp hrun
    obtain ⟨s₂, hstep, hs⟩ := run_cons_some hlast
    cases hs
    obtain ⟨hmeets₁, hq⟩ := meets_append.mp hmeets
    have hseen : ∀ m, SeenIn c src dst atLsn now docs₀ ls m →
        SeenIn c src dst atLsn now docs₀ (ls ++ [l]) m := by
      rintro m ⟨earlier, s, hpre, hs⟩
      exact ⟨earlier, s, hpre.trans (List.prefix_append ..), hs⟩
    have h := (ih s₁ h₁ hmeets₁).mono hseen
    cases l with
    | commit n edit =>
      cases hstep
      exact h.commit hc (hq s₁ h₁).1
    | doc key data =>
      obtain ⟨hnot, hstep⟩ := Option.ite_none_left_eq_some.mp hstep
      cases hstep
      exact h.doc (fun heq => hnot (.inl heq))
        (Bool.eq_false_iff.mpr fun heq => hnot (.inr heq))
    | request ack =>
      refine h.request hc (fun n m hm => ⟨ls, s₁, List.prefix_append .., h₁, ?_⟩) hstep
      rw [h.named n m hm]
      exact hm

/-- In every run in which no commit raises a horizon above the branch point
on a shard that was asked and is not loaded again, a branch that returns has
copied every shard manifest that was there when it began. Each copy is in
the store under the child, has a horizon at or below the branch point, and
lists every layer below it of a manifest the parent had during the branch. -/
theorem branch_race_served (hc : c.Lawful) (hnamed : ShardsNamed c docs₀ src)
    {ls : List (BranchAct B)} {child : Manifest}
    (hrun : run (next c src dst atLsn now) ⟨docs₀, .parent, []⟩ ls = some s)
    (hquiet : Meets (next c src dst atLsn now) Quiet ⟨docs₀, .parent, []⟩ ls)
    (hok : s.pc = .ended (.ok child)) : dst ≠ src
      ∧ (∀ n, (get docs₀ (.shard src n)).isSome → ∃ p ∈ s.copied, p.1.shard = n)
      ∧ ∀ p ∈ s.copied, get s.docs (.shard dst p.1.shard) = some (c.encode p.2)
        ∧ (∀ h, p.2.horizon = some h → h ≤ branchPoint child)
        ∧ SeenIn c src dst atLsn now docs₀ ls p.1
        ∧ ∃ ds, PageShardManifest.descs p.1.layers = .ok ds
          ∧ PageShardManifest.descs p.2.layers
            = .ok (ds.filterMap (LayerDesc.cut src (branchPoint child))) := by
  have h := run_sound hc hnamed ls s hrun hquiet
  have hchild : s.pc.child? = some child := by rw [hok]; rfl
  have hleft : s.pc.left = some [] := by rw [hok]; rfl
  have hne : dst ≠ src := by
    intro heq
    have hended := (h.itself heq (by rw [hchild]; rfl)).2
    rw [hok] at hended
    cases hended
  refine ⟨hne, fun n hn => ?_, fun p hp => ?_⟩
  · rcases h.all [] hleft n hn with hmem | hcopied
    · cases hmem
    · exact hcopied
  · obtain ⟨hcut, -, hget⟩ := h.copied child hchild p hp
    obtain ⟨-, -, -, hds⟩ := cutShard_ok hcut.cut
    exact ⟨hget hne, hcut.horizon, hcut.seen, hds⟩

end

/-- The branch of `plainSite` with a commit between the two loads. -/
def swappedBetween (horizon : Lsn) : List (BranchAct (Manifest ⊕ PageShardManifest)) :=
  [.request .reply, .request .reply, .request .reply,
    .commit 0 (.swap [] [] none (some horizon)), .request .reply, .request .reply, .request .reply]

theorem branch_race_served_below : ∃ s,
    run (next docCodec "prod" "child" none 1000) ⟨plainSite.docs, .parent, []⟩ (swappedBetween 15)
        = some s
      ∧ s.pc = .ended (.ok plainBranch)
      ∧ ∃ p ∈ s.copied, p.1.shard = 0 :=
  have hnamed : ShardsNamed docCodec plainSite.docs "prod" := by
    intro n parent h
    cases n with
    | zero =>
      cases h
      rfl
    | succ n => cases h
  have hquiet : Meets (next docCodec "prod" "child" none 1000) Quiet
      ⟨plainSite.docs, .parent, []⟩ (swappedBetween 15) := by decide +kernel
  ⟨_, rfl, rfl, (branch_race_served docCodec_lawful hnamed rfl hquiet rfl).2.1 0 rfl⟩

/-- A horizon that rises past the branch point after it was asked for. -/
theorem horizon_raised_between : ∃ s m,
    run (next docCodec "prod" "child" none 1000) ⟨plainSite.docs, .parent, []⟩ (swappedBetween 25)
        = some s
      ∧ s.pc = .ended (.ok plainBranch)
      ∧ get s.docs (.shard "child" 0) = some (.inr m)
      ∧ m.horizon = some 25 ∧ branchPoint plainBranch = 20 :=
  ⟨_, _, rfl, rfl, rfl, rfl, rfl⟩

end BranchRace

end Zou
