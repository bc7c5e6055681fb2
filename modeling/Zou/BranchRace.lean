import Zou.BranchSafety
import Zou.Site

/-!
# A branch among its parent's commits

`branch` is a sequence of requests, and its parent does not stop for it:
between any two of them a commit can land on one of the parent's shard
manifests. Here a branch is where it is in that sequence (`BranchPc`), one
request is one step, and so is a commit; the retry loops behind the
commits amount to the edits that landed. A request may fail, and a put that
fails may have landed.

Run alone, the steps are `branch` (`branch_alone`).
-/

namespace Zou

open Store Trace

/-- The next request of a branch, with what it has read so far. The first
pass asks every shard for its horizon, the second loads it again. -/
inductive BranchPc where
  | parent
  | list (child : Manifest) (shards : Nat)
  | check (child : Manifest) (keys : List Nat) (n : Nat) (ns : List Nat)
  | copy (child : Manifest) (n : Nat) (ns : List Nat)
  | put (child : Manifest) (parent copy : PageShardManifest) (ns : List Nat)
  | land (child : Manifest)
  | ended (r : Except BranchError Manifest)

/-- The second pass over the shards that are left. -/
def BranchPc.copying (child : Manifest) : List Nat → BranchPc
  | [] => .land child
  | n :: ns => .copy child n ns

/-- The first pass over the shards that are left, of `keys`. -/
def BranchPc.checking (child : Manifest) (keys : List Nat) : List Nat → BranchPc
  | [] => .copying child keys
  | n :: ns => .check child keys n ns

/-- A shard that is not there is not copied. -/
def BranchPc.loaded (child : Manifest) (ns : List Nat) :
    Option (PageShardManifest × PageShardManifest) → BranchPc
  | none => .copying child ns
  | some p => .put child p.1 p.2 ns

/-- A store with a branch under way. `copied` are the copies it has sent,
next to what they are of, newest first; the branch does not keep them. -/
structure BranchRace (B : Type) where
  docs : List (Key × B)
  pc : BranchPc
  copied : List (PageShardManifest × PageShardManifest)

inductive BranchAct (B : Type) where
  | request (ack : Store.Ack)
  /-- A commit on one of the parent's shard manifests. -/
  | commit (n : Nat) (edit : ShardEdit)
  /-- A put of any other document, the child's excepted. -/
  | doc (key : Key) (data : B)

/-- A shard manifest of the tenant. -/
def Key.shardOf (t : String) : Key → Bool
  | .shard t' _ => t' = t
  | _ => false

namespace BranchRace

variable {B α : Type}

/-- What a request does to the store, and where it takes the branch. -/
def answer (s : BranchRace B) (ack : Store.Ack) (x : BranchM B α) (k : α → BranchPc) :
    BranchRace B :=
  match x ⟨s.docs, [ack]⟩ with
  | (.ok a, w) => { s with docs := w.objs, pc := k a }
  | (.error e, w) => { s with docs := w.objs, pc := .ended (.error e) }

variable (c : Codec B) (src dst : String)

/-- The parent's manifest, and the child it gives. -/
def loadParent (atLsn : Option Lsn) (now : Nat) : BranchM B (Manifest × Nat) := do
  let parent ← currentManifest c src
  let child ← Prog.lift (childOf parent src dst atLsn now)
  pure (child, parent.shards)

/-- One shard of the first pass. -/
def checkShard (at_ : Lsn) (n : Nat) : BranchM B Unit := do
  let parent ← loadShard c src n
  Prog.lift (refuseBelow at_ parent)

/-- One shard of the second pass, up to its put. -/
def copyShard (at_ : Lsn) (n : Nat) :
    BranchM B (Option (PageShardManifest × PageShardManifest)) := do
  match ← loadShard c src n with
  | none => pure none
  | some parent => do
      let child ← Prog.lift ((cutShard src at_ parent).mapError .shard)
      pure (some (parent, child))

variable (atLsn : Option Lsn) (now : Nat)

def next (s : BranchRace B) : BranchAct B → Option (BranchRace B)
  | .commit n edit => some { s with docs := (Site.commit c ⟨s.docs, []⟩ src n edit).docs }
  | .doc key data =>
    if key.tenant = dst ∨ key.shardOf src then none
    else some { s with docs := (key, data) :: s.docs }
  | .request ack => match s.pc with
      | .parent => some (s.answer ack (loadParent c src dst atLsn now) fun p => .list p.1 p.2)
      | .list child shards => some (s.answer ack (Store.read .store (shardKeys src shards))
          fun keys => .checking child keys keys)
      | .check child keys n ns => some (s.answer ack (checkShard c src (branchPoint child) n)
          fun _ => .checking child keys ns)
      | .copy child n ns => some (s.answer ack (copyShard c src (branchPoint child) n)
          (.loaded child ns))
      | .put child parent copy ns =>
        some { s.answer ack (Store.put .store (.shard dst parent.shard) (c.encode copy))
            (fun _ => .copying child ns) with
          copied := (parent, copy) :: s.copied }
      | .land child => some (s.answer ack (publishChild c dst child) fun _ => .ended (.ok child))
      | .ended _ => none

/-! ## The branch alone -/

/-- Where a part of the branch leaves the store, once it is over. -/
def after (copied : List (PageShardManifest × PageShardManifest)) (k : α → BranchPc) :
    Except BranchError α × World Key B → BranchRace B
  | (.ok a, w) => ⟨w.objs, k a, copied⟩
  | (.error e, w) => ⟨w.objs, .ended (.error e), copied⟩

theorem answer_eq (s : BranchRace B) (ack : Store.Ack) (x : BranchM B α) (k : α → BranchPc) :
    s.answer ack x k = after s.copied k (x ⟨s.docs, [ack]⟩) := by
  unfold answer after
  rcases x ⟨s.docs, [ack]⟩ with ⟨r, w⟩
  cases r <;> rfl

/-- A computation of one request: it needs one answer and no more. -/
def OneRequest (x : BranchM B α) : Prop :=
  ∀ w, ∃ ack, (x w).1 = (x ⟨w.objs, [ack]⟩).1 ∧ (x w).2.objs = (x ⟨w.objs, [ack]⟩).2.objs

theorem oneRequest_read (f : List (Key × B) → α) :
    OneRequest (Store.read .store f : BranchM B α) := by
  rintro ⟨objs, acks⟩
  cases acks with
  | nil => exact ⟨.reply, rfl, rfl⟩
  | cons a as => exact ⟨a, by cases a <;> rfl, by cases a <;> rfl⟩

theorem oneRequest_put (k : Key) (b : B) : OneRequest (Store.put .store k b : BranchM B Unit) := by
  rintro ⟨objs, acks⟩
  cases acks with
  | nil => exact ⟨.reply, rfl, rfl⟩
  | cons a as => exact ⟨a, by cases a <;> rfl, by cases a <;> rfl⟩

theorem oneRequest_putIfAbsent (e : BranchError) (k : Key) (b : B) :
    OneRequest (Store.putIfAbsent .store e k b : BranchM B Unit) := by
  rintro ⟨objs, acks⟩
  have hans : ∀ a as, (Store.putIfAbsent .store e k b : BranchM B Unit) ⟨objs, a :: as⟩
      = (((Store.putIfAbsent .store e k b : BranchM B Unit) ⟨objs, [a]⟩).1,
        ⟨((Store.putIfAbsent .store e k b : BranchM B Unit) ⟨objs, [a]⟩).2.objs, as⟩) := by
    intro a as
    simp only [Store.putIfAbsent, World.ack]
    cases Store.get objs k <;> cases a <;> rfl
  cases acks with
  | nil =>
    exact ⟨.reply, by simp only [Store.putIfAbsent, World.ack], by
      simp only [Store.putIfAbsent, World.ack]⟩
  | cons a as => exact ⟨a, by rw [hans], by rw [hans]⟩

/-- What follows a request without a request of its own. -/
theorem OneRequest.bind {β : Type} {x : BranchM B α} {f : α → BranchM B β} (hx : OneRequest x)
    (hf : ∀ a, ∃ r, f a = Prog.lift r) : OneRequest (x >>= f) := by
  intro w
  obtain ⟨ack, hr, hobjs⟩ := hx w
  refine ⟨ack, ?_⟩
  rw [Prog.bind_apply, Prog.bind_apply]
  rcases hw : x w with ⟨r, w₁⟩
  rcases hw' : x ⟨w.objs, [ack]⟩ with ⟨r', w₂⟩
  rw [hw, hw'] at hr hobjs
  obtain rfl : r = r' := hr
  cases r with
  | error e => exact ⟨rfl, hobjs⟩
  | ok a =>
    obtain ⟨r, hfa⟩ := hf a
    dsimp only
    rw [hfa]
    exact ⟨rfl, hobjs⟩

variable {c src dst atLsn now}

theorem oneRequest_loadShard (n : Nat) : OneRequest (loadShard c src n) := by
  refine (oneRequest_read _).bind fun data => ?_
  cases data with
  | none => exact ⟨.ok none, rfl⟩
  | some data => exact ⟨_, rfl⟩

theorem oneRequest_loadParent : OneRequest (loadParent c src dst atLsn now) := by
  have hcur : OneRequest (currentManifest c src) := by
    refine (oneRequest_read _).bind fun data => ?_
    cases data with
    | none => exact ⟨.error (.noSource src), rfl⟩
    | some data => exact ⟨_, rfl⟩
  refine hcur.bind fun parent => ?_
  cases childOf parent src dst atLsn now with
  | error e => exact ⟨.error e, rfl⟩
  | ok child => exact ⟨.ok (child, parent.shards), rfl⟩

theorem oneRequest_checkShard (at_ : Lsn) (n : Nat) : OneRequest (checkShard c src at_ n) :=
  (oneRequest_loadShard n).bind fun parent => ⟨refuseBelow at_ parent, rfl⟩

theorem oneRequest_copyShard (at_ : Lsn) (n : Nat) : OneRequest (copyShard c src at_ n) := by
  refine (oneRequest_loadShard n).bind fun parent => ?_
  cases parent with
  | none => exact ⟨.ok none, rfl⟩
  | some parent =>
    dsimp only
    cases cutShard src at_ parent with
    | error e => exact ⟨.error (.shard e), rfl⟩
    | ok child => exact ⟨.ok (some (parent, child)), rfl⟩

/-- The steps of the branch alone take a store to where a part of it is
over. -/
def Leads (c : Codec B) (src dst : String) (atLsn : Option Lsn) (now : Nat) (s : BranchRace B)
    (k : α → BranchPc) (r : Except BranchError α × World Key B) : Prop :=
  ∃ (acks : List Store.Ack) (copied : List (PageShardManifest × PageShardManifest)),
    run (next c src dst atLsn now) s (acks.map .request) = some (after copied k r)

section Leads

variable {β : Type} {s : BranchRace B} {k : α → BranchPc} {k' : β → BranchPc}

theorem Leads.request {x : BranchM B α} (hx : OneRequest x) {w : World Key B} {pc : BranchPc}
    {cp : List (PageShardManifest × PageShardManifest)}
    (cp' : List (PageShardManifest × PageShardManifest))
    (hstep : ∀ ack, next c src dst atLsn now ⟨w.objs, pc, cp⟩ (.request ack)
      = some (after cp' k (x ⟨w.objs, [ack]⟩))) :
    Leads c src dst atLsn now ⟨w.objs, pc, cp⟩ k (x w) := by
  obtain ⟨ack, hr, hobjs⟩ := hx w
  have hafter : after cp' k (x ⟨w.objs, [ack]⟩) = after cp' k (x w) := by
    unfold after
    rcases hw : x w with ⟨r, w₁⟩
    rcases hw' : x ⟨w.objs, [ack]⟩ with ⟨r', w₂⟩
    rw [hw, hw'] at hr hobjs
    obtain rfl : r = r' := hr
    obtain hobjs : w₁.objs = w₂.objs := hobjs
    cases r with
    | ok a => simp only [hobjs]
    | error e => simp only [hobjs]
  refine ⟨[ack], cp', ?_⟩
  rw [List.map_singleton, run_cons, hstep, Option.bind_some, run_nil, hafter]

/-- One part after another. -/
theorem Leads.bind {x : BranchM B α} {f : α → BranchM B β} {w : World Key B}
    (hx : Leads c src dst atLsn now s k (x w))
    (hf : ∀ a w₁ cp, x w = (.ok a, w₁) → Leads c src dst atLsn now ⟨w₁.objs, k a, cp⟩ k' (f a w₁)) :
    Leads c src dst atLsn now s k' ((x >>= f) w) := by
  obtain ⟨acks, cp, hrun⟩ := hx
  rw [Prog.bind_apply]
  rcases hw : x w with ⟨r, w₁⟩
  rw [hw] at hrun
  cases r with
  | error e => exact ⟨acks, cp, hrun⟩
  | ok a =>
    obtain ⟨acks', cp', hrun'⟩ := hf a w₁ cp hw
    refine ⟨acks ++ acks', cp', ?_⟩
    rw [List.map_append, run_append, hrun]
    exact hrun'

/-- A part that is over without a request. -/
theorem Leads.here {r : Except BranchError α × World Key B}
    {cp : List (PageShardManifest × PageShardManifest)} (h : s = after cp k r) :
    Leads c src dst atLsn now s k r :=
  ⟨[], cp, by rw [h]; rfl⟩

end Leads

theorem leads_check (child : Manifest) (keys : List Nat) : ∀ (ns : List Nat) (w : World Key B)
    (cp : List (PageShardManifest × PageShardManifest)),
    Leads c src dst atLsn now ⟨w.objs, .checking child keys ns, cp⟩
      (fun _ => .copying child keys) (checkHorizons c src (branchPoint child) ns w) := by
  intro ns
  induction ns with
  | nil => exact fun w cp => Leads.here rfl
  | cons n ns ih =>
    intro w cp
    have hsplit : checkHorizons c src (branchPoint child) (n :: ns) w
        = (checkShard c src (branchPoint child) n >>= fun _ =>
            checkHorizons c src (branchPoint child) ns) w := by
      simp only [checkHorizons, checkShard, Prog.bind_apply]
      rcases loadShard c src n w with ⟨r, w₁⟩
      cases r <;> rfl
    rw [hsplit]
    have hreq : Leads c src dst atLsn now ⟨w.objs, .check child keys n ns, cp⟩
        (fun _ => .checking child keys ns) (checkShard c src (branchPoint child) n w) :=
      Leads.request (oneRequest_checkShard _ n) cp fun ack => congrArg some (answer_eq ..)
    exact hreq.bind fun _ w₁ cp₁ _ => ih w₁ cp₁

/-- The put of a copy, and the shards after it. -/
def putCopy (c : Codec B) (src dst : String) (at_ : Lsn) (ns : List Nat) :
    Option (PageShardManifest × PageShardManifest) → BranchM B Unit
  | none => copyShards c src dst at_ ns
  | some p => do
      Store.put .store (.shard dst p.1.shard) (c.encode p.2)
      copyShards c src dst at_ ns

theorem copyShards_split (at_ : Lsn) (n : Nat) (ns : List Nat) (w : World Key B) :
    copyShards c src dst at_ (n :: ns) w
      = (copyShard c src at_ n >>= putCopy c src dst at_ ns) w := by
  simp only [copyShards, copyShard, Prog.bind_apply]
  rcases loadShard c src n w with ⟨r, w₁⟩
  rcases r with e | (_ | parent)
  · rfl
  · rfl
  · dsimp only
    rw [Prog.bind_apply, Prog.bind_apply]
    cases cutShard src at_ parent with
    | error e => rfl
    | ok child => rfl

theorem leads_copy (child : Manifest) : ∀ (ns : List Nat) (w : World Key B)
    (cp : List (PageShardManifest × PageShardManifest)),
    Leads c src dst atLsn now ⟨w.objs, .copying child ns, cp⟩ (fun _ => .land child)
      (copyShards c src dst (branchPoint child) ns w) := by
  intro ns
  induction ns with
  | nil => exact fun w cp => Leads.here rfl
  | cons n ns ih =>
    intro w cp
    rw [copyShards_split]
    have hload : Leads c src dst atLsn now ⟨w.objs, .copy child n ns, cp⟩ (.loaded child ns)
        (copyShard c src (branchPoint child) n w) :=
      Leads.request (oneRequest_copyShard _ n) cp fun ack => congrArg some (answer_eq ..)
    refine hload.bind fun p w₁ cp₁ _ => ?_
    cases p with
    | none => exact ih w₁ cp₁
    | some p =>
      have hput : Leads c src dst atLsn now ⟨w₁.objs, .put child p.1 p.2 ns, cp₁⟩
          (fun _ => .copying child ns)
          (Store.put .store (.shard dst p.1.shard) (c.encode p.2) w₁) := by
        refine Leads.request (oneRequest_put _ _) (p :: cp₁) fun ack => congrArg some ?_
        unfold answer after
        generalize Store.put BranchError.store (.shard dst p.1.shard) (c.encode p.2)
          ⟨w₁.objs, [ack]⟩ = out
        obtain ⟨r, w₂⟩ := out
        cases r <;> rfl
      exact hput.bind fun _ w₂ cp₂ _ => ih w₂ cp₂

theorem branch_split (w : World Key B) :
    branch c src dst atLsn now w = (loadParent c src dst atLsn now >>= fun p =>
      Store.read .store (shardKeys src p.2) >>= fun keys =>
      checkHorizons c src (branchPoint p.1) keys >>= fun _ =>
      copyShards c src dst (branchPoint p.1) keys >>= fun _ =>
      publishChild c dst p.1 >>= fun _ => pure p.1) w := by
  unfold branch loadParent
  rw [Prog.bind_apply, Prog.bind_apply, Prog.bind_apply]
  rcases currentManifest c src w with ⟨r, w₁⟩
  cases r with
  | error e => rfl
  | ok parent =>
    dsimp only [landChild]
    rw [Prog.bind_apply, Prog.bind_apply]
    cases childOf parent src dst atLsn now with
    | error e => rfl
    | ok child =>
      dsimp only [Prog.lift_apply, Prog.pure_apply, branchShards]
      rw [Prog.bind_apply, Prog.bind_apply, Prog.bind_apply]
      rcases Store.read BranchError.store (shardKeys src parent.shards) w₁ with ⟨r, w₂⟩
      cases r with
      | error e => rfl
      | ok keys =>
        dsimp only
        rw [Prog.bind_apply, Prog.bind_apply]
        rcases checkHorizons c src (branchPoint child) keys w₂ with ⟨r, w₃⟩
        cases r <;> rfl

/-- Run alone, one request after the other, a branch is `branch`. -/
theorem branch_alone (w : World Key B) : ∃ (acks : List Store.Ack)
    (copied : List (PageShardManifest × PageShardManifest)),
    run (next c src dst atLsn now) ⟨w.objs, .parent, []⟩ (acks.map .request)
      = some ⟨(branch c src dst atLsn now w).2.objs, .ended (branch c src dst atLsn now w).1,
          copied⟩ := by
  have hload : Leads c src dst atLsn now ⟨w.objs, .parent, []⟩ (fun p => .list p.1 p.2)
      (loadParent c src dst atLsn now w) :=
    Leads.request oneRequest_loadParent [] fun ack => congrArg some (answer_eq ..)
  have hwhole : Leads c src dst atLsn now ⟨w.objs, .parent, []⟩ (fun child => .ended (.ok child))
      (branch c src dst atLsn now w) := by
    rw [branch_split]
    refine hload.bind fun p w₁ cp₁ _ => ?_
    have hlist : Leads c src dst atLsn now ⟨w₁.objs, .list p.1 p.2, cp₁⟩
        (fun keys => .checking p.1 keys keys) (Store.read .store (shardKeys src p.2) w₁) :=
      Leads.request (oneRequest_read _) cp₁ fun ack => congrArg some (answer_eq ..)
    refine hlist.bind fun keys w₂ cp₂ _ => (leads_check p.1 keys keys w₂ cp₂).bind
      fun _ w₃ cp₃ _ => (leads_copy p.1 keys w₃ cp₃).bind fun _ w₄ cp₄ _ => ?_
    have hland : Leads c src dst atLsn now ⟨w₄.objs, .land p.1, cp₄⟩
        (fun _ => .ended (.ok p.1)) (publishChild c dst p.1 w₄) :=
      Leads.request (oneRequest_putIfAbsent _ _ _) cp₄ fun ack => congrArg some (answer_eq ..)
    exact hland.bind fun _ w₅ cp₅ _ => Leads.here rfl
  obtain ⟨acks, copied, hrun⟩ := hwhole
  refine ⟨acks, copied, hrun.trans (congrArg some ?_)⟩
  unfold after
  rcases branch c src dst atLsn now w with ⟨r, w'⟩
  cases r <;> rfl

end BranchRace

end Zou
