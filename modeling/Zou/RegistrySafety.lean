import Mathlib.Data.List.Induction
import Zou.Registry

/-!
# What the registry promises, and when

`life` reads off the calls that returned what an entry was created with
and which calls have edited it since, and `Tenant.after` says what it
holds then: each field the value of the last call that set it. A step
keeps this exactly when what it puts is its edit of the entry that is
there, and keeps aliases with their owners exactly when the alias it
deletes is the caller's own. So a run keeps both throughout exactly when
no step of it is out of date (`registry_holds`).
-/

namespace Zou

open Trace

/-! ## Entries by their history -/

namespace RegistryCall

/-- Calls that edit an entry that is there. -/
def edits : RegistryCall → Bool
  | .create _ | .delete _ => false
  | _ => true

/-- What a call means for the entry of its tenant. -/
def effect : RegistryCall → Option Tenant → Option Tenant
  | .create e, _ => some e
  | .delete _, _ => none
  | c, o => o.map c.edit

theorem effect_of_edits {c : RegistryCall} (h : c.edits = true) (o : Option Tenant) :
    c.effect o = o.map c.edit := by
  cases c with
  | create e => cases h
  | delete t => cases h
  | _ => rfl

def s3 : RegistryCall → Option (String × String)
  | .setS3 _ access secret => some (access, secret)
  | _ => none

def auth : RegistryCall → Option (Option TenantAuth)
  | .setAuth _ auth => some auth
  | _ => none

def deploys : RegistryCall → Bool
  | .noteDeploy _ => true
  | _ => false

/-- The life of the entry at `t`: what it was created with and the calls
since. -/
def lived (t : List Char) (o : Option (Tenant × List RegistryCall)) (c : RegistryCall) :
    Option (Tenant × List RegistryCall) :=
  if c.tenantRef = t then
    match c with
    | .create e => some (e, [])
    | .delete _ => none
    | c => o.map fun p => (p.1, p.2 ++ [c])
  else o

end RegistryCall

/-- Each field as the last call that set it left it, and otherwise as the
entry was created. -/
def Tenant.after (made : Tenant) (since : List RegistryCall) : Tenant :=
  { made with
    s3AccessKey := ((since.filterMap RegistryCall.s3).getLast?.map Prod.fst).getD made.s3AccessKey
    s3SecretKey := ((since.filterMap RegistryCall.s3).getLast?.map Prod.snd).getD made.s3SecretKey
    auth := (since.filterMap RegistryCall.auth).getLast?.getD made.auth
    deployed := made.deployed + since.countP RegistryCall.deploys
    hosts := since.foldl (fun hs c => c.hosts hs) made.hosts }

@[simp] theorem Tenant.after_nil (made : Tenant) : made.after [] = made := rfl

theorem Tenant.after_snoc (made : Tenant) (since : List RegistryCall) {c : RegistryCall}
    (h : c.edits = true) : made.after (since ++ [c]) = c.edit (made.after since) := by
  cases c with
  | create e => cases h
  | delete t => cases h
  | addHost t h => simp [after, RegistryCall.edit, RegistryCall.s3, RegistryCall.auth,
      RegistryCall.deploys, List.foldl_append]
  | removeHost t h => simp [after, RegistryCall.edit, RegistryCall.s3, RegistryCall.auth,
      RegistryCall.deploys, List.foldl_append]
  | setS3 t access secret => simp [after, RegistryCall.edit, RegistryCall.s3, RegistryCall.auth,
      RegistryCall.deploys, RegistryCall.hosts, List.foldl_append]
  | setAuth t auth => simp [after, RegistryCall.edit, RegistryCall.s3, RegistryCall.auth,
      RegistryCall.deploys, RegistryCall.hosts, List.foldl_append]
  | noteDeploy t => simp [after, RegistryCall.edit, RegistryCall.s3, RegistryCall.auth,
      RegistryCall.deploys, RegistryCall.hosts, List.foldl_append, Nat.add_assoc]

/-- The entry at `t` as the calls that returned have it, from `born`. -/
def life (born : List Char → Option Tenant) (log : List RegistryCall) (t : List Char) :
    Option (Tenant × List RegistryCall) :=
  log.foldl (RegistryCall.lived t) ((born t).map fun e => (e, []))

def expected (born : List Char → Option Tenant) (log : List RegistryCall) (t : List Char) :
    Option Tenant :=
  (life born log t).map fun p => p.1.after p.2

theorem lived_after (t : List Char) (o : Option (Tenant × List RegistryCall)) (c : RegistryCall) :
    (c.lived t o).map (fun p => p.1.after p.2)
      = if c.tenantRef = t then c.effect (o.map fun p => p.1.after p.2)
        else o.map fun p => p.1.after p.2 := by
  have hedit : c.edits = true → (o.map fun p => (p.1, p.2 ++ [c])).map (fun p => p.1.after p.2)
      = (o.map fun p => p.1.after p.2).map c.edit := by
    intro hc
    rw [Option.map_map, Option.map_map]
    congr 1
    funext p
    exact Tenant.after_snoc p.1 p.2 hc
  unfold RegistryCall.lived
  by_cases ht : c.tenantRef = t
  · rw [if_pos ht, if_pos ht]
    cases c with
    | create e => rfl
    | delete t => rfl
    | _ => exact hedit rfl
  · rw [if_neg ht, if_neg ht]

/-- A call that returns changes the entry of its tenant and no other. -/
theorem expected_snoc (born : List Char → Option Tenant) (log : List RegistryCall)
    (c : RegistryCall) (t : List Char) : expected born (log ++ [c]) t
      = if c.tenantRef = t then c.effect (expected born log t) else expected born log t := by
  have hlife : life born (log ++ [c]) t = c.lived t (life born log t) := by
    simp [life, List.foldl_append]
  rw [expected, hlife, lived_after]
  rfl

namespace Registry

variable {V : Type} {content : V → Tenant} {born : List Char → Option Tenant}

/-! ## What a run is to keep -/

/-- The entry stored at `t`. -/
def entry (s : Registry V) (t : List Char) : Option Tenant := (s.entries t).map Prod.fst

/-- Every entry is what the calls that returned have made of it. -/
def EntriesHold (born : List Char → Option Tenant) (s : Registry V) : Prop :=
  ∀ t, s.entry t = expected born s.log t

/-- A hostname routes to the tenant whose `add_host` claimed it, and no
alias was deleted in a call for another tenant than its owner. -/
def AliasesHold (s : Registry V) : Prop :=
  (∀ h a, s.aliases h = some a → s.claims h = some a.tenantRef)
    ∧ ∀ x ∈ s.vanished, x.2.1 = x.2.2

/-- What a caller's next store operation does is up to date: it puts its
edit of the entry that is there, it leaves an entry alone that needs no
edit, and it deletes no alias but its own tenant's. -/
def current (s : Registry V) : RegistryPc V → Bool
  | .write c e => (s.entry c.tenantRef).map c.edit = some (c.edit e)
  | .addAlias t h e =>
    (s.aliases h).isSome || ! e.hosts.contains h || (s.entry t).all fun e' => e'.hosts.contains h
  | .addOwner t h e =>
    (s.hostRef h).toOption ≠ some (some t) || ! e.hosts.contains h
      || (s.entry t).all fun e' => e'.hosts.contains h
  | .removeAlias t h | .deleteAlias t h _ => (s.aliases h).all fun a => a.tenantRef = t
  | _ => true

def upToDate (s : Registry V) : RegistryLabel V → Bool
  | .op i true _ => s.current (s.pcs i)
  | _ => true

/-! ## Steps -/

/-- What a step does to the entries, and whether that keeps them: nothing,
or a call returns and its tenant's entry is put, deleted or left. -/
inductive EntryStep (s s' : Registry V) : Prop → Prop
  | kept (entries : s'.entries = s.entries) (log : s'.log = s.log) : EntryStep s s' True
  | made (c : RegistryCall) (new : Option (Tenant × V))
      (entries : s'.entries = Function.update s.entries c.tenantRef new)
      (log : s'.log = s.log ++ [c]) :
      EntryStep s s' (new.map Prod.fst = c.effect (s.entry c.tenantRef))

/-- What a step does to the aliases, and whether that keeps them. -/
inductive AliasStep (s s' : Registry V) : Prop → Prop
  | kept (aliases : s'.aliases = s.aliases) (claims : s'.claims = s.claims)
      (vanished : s'.vanished = s.vanished) : AliasStep s s' True
  | claimed (t h : List Char) (aliases : s'.aliases = (s.claim t h).aliases)
      (claims : s'.claims = (s.claim t h).claims) (vanished : s'.vanished = s.vanished) :
      AliasStep s s' True
  | dropped (t h : List Char) (aliases : s'.aliases = (s.dropAlias t h).aliases)
      (claims : s'.claims = s.claims) (vanished : s'.vanished = (s.dropAlias t h).vanished) :
      AliasStep s s' (∀ a, s.aliases h = some a → a.tenantRef = t)

theorem claim_aliases (s : Registry V) (t h h' : List Char) : (s.claim t h).aliases h'
    = if h' = h then some ⟨registryFormat, h, t⟩ else s.aliases h' :=
  Function.update_apply ..

theorem claim_claims (s : Registry V) (t h h' : List Char) :
    (s.claim t h).claims h' = if h' = h then some t else s.claims h' :=
  Function.update_apply ..

theorem dropAlias_aliases (s : Registry V) (t h h' : List Char) :
    (s.dropAlias t h).aliases h' = if h' = h then none else s.aliases h' :=
  Function.update_apply ..

variable {s s' : Registry V}

theorem EntryStep.holds {p : Prop} (hd : EntryStep s s' p)
    (h : EntriesHold born s) : EntriesHold born s' ↔ p := by
  cases hd with
  | kept hentries hlog =>
    refine iff_of_true ?_ trivial
    intro t
    rw [entry, hentries, hlog]
    exact h t
  | made c new hentries hlog =>
    have hat : ∀ t, s'.entry t = expected born s'.log t
        ↔ (c.tenantRef = t → new.map Prod.fst = c.effect (s.entry c.tenantRef)) := by
      intro t
      rw [entry, hentries, hlog, expected_snoc, Function.update_apply]
      by_cases ht : c.tenantRef = t
      · subst ht
        rw [if_pos rfl, if_pos rfl, ← h c.tenantRef]
        exact ⟨fun hn _ => hn, fun hn => hn rfl⟩
      · have ht' : ¬ t = c.tenantRef := fun heq => ht heq.symm
        rw [if_neg ht, if_neg ht', ← h t]
        exact iff_of_true rfl fun heq => absurd heq ht
    exact ⟨fun hh => (hat _).mp (hh _) rfl, fun hp t => (hat t).mpr fun _ => hp⟩

theorem AliasStep.holds {p : Prop} (hd : AliasStep s s' p)
    (h : AliasesHold s) : AliasesHold s' ↔ p := by
  cases hd with
  | kept ha hc hv =>
    refine iff_of_true ?_ trivial
    rw [AliasesHold, ha, hc, hv]
    exact h
  | claimed t host ha hc hv =>
    refine iff_of_true ⟨?_, by rw [hv]; exact h.2⟩ trivial
    intro h' a haa
    rw [ha, claim_aliases] at haa
    rw [hc, claim_claims]
    split at haa
    · rename_i heq
      cases haa
      rw [if_pos heq]
    · rename_i hne
      rw [if_neg hne]
      exact h.1 h' a haa
  | dropped t host ha hc hv =>
    have hroutes : ∀ h' a, s'.aliases h' = some a → s'.claims h' = some a.tenantRef := by
      intro h' a haa
      rw [ha, dropAlias_aliases] at haa
      rw [hc]
      split at haa
      · cases haa
      · exact h.1 h' a haa
    rw [AliasesHold, hv, dropAlias]
    constructor
    · rintro ⟨-, hall⟩ a haa
      exact hall (host, a.tenantRef, t) (by simp [haa])
    · intro hown
      refine ⟨hroutes, fun x hx => ?_⟩
      rcases List.mem_append.mp hx with hold | hnew
      · exact h.2 x hold
      · obtain ⟨a, haa, rfl⟩ : ∃ a, s.aliases host = some a ∧ (host, a.tenantRef, t) = x := by
          simpa using hnew
        exact hown a haa

/-! ## Every step -/

def PcOk (content : V → Tenant) : RegistryPc V → Prop
  | .setGet c | .write c _ => c.edits = true
  | .deployPut _ _ e v => content v = e
  | _ => True

/-- Tokens stand for entries, and calls under way for what they say. -/
structure Inv (content : V → Tenant) (s : Registry V) : Prop where
  sound : ∀ t e v, s.entries t = some (e, v) → content v = e
  pcs : ∀ i, PcOk content (s.pcs i)

variable {i : Nat}

theorem Inv.goto {pc : RegistryPc V} (h : Inv content s)
    (hpc : PcOk content pc) : Inv content (s.goto i pc) := by
  refine ⟨h.sound, fun j => ?_⟩
  simp only [Registry.goto, Function.update_apply]
  split
  · exact hpc
  · exact h.pcs j

variable {t : List Char}

theorem Inv.putEntry {o : Option (Tenant × V)} (h : Inv content s)
    (ho : ∀ e v, o = some (e, v) → content v = e) : Inv content (s.putEntry t o) := by
  refine ⟨fun t' e v he => ?_, h.pcs⟩
  simp only [Registry.putEntry, Function.update_apply] at he
  split at he
  · exact ho e v he
  · exact h.sound t' e v he

variable {c : RegistryCall}

theorem Inv.succeed {n : Option Nat} (h : Inv content s) : Inv content (s.succeed i c n) :=
  Inv.goto (s := { s with log := s.log ++ [c] }) ⟨h.sound, h.pcs⟩ trivial

variable {h : List Char} {e : Tenant}

theorem Inv.addEntry (hs : Inv content s) : Inv content (s.addEntry i t h e) := by
  unfold Registry.addEntry
  split
  · exact hs.succeed
  · exact hs.goto rfl

theorem Inv.deleteRest {rest : List (List Char)}
    (hs : Inv content s) : Inv content (s.deleteRest i t rest) := by
  cases rest with
  | nil => exact hs.goto trivial
  | cons h rest => exact hs.goto trivial

theorem Inv.start (hs : Inv content s) : Inv content (s.start i c) := by
  cases c with
  | create e =>
    simp only [Registry.start]
    split
    · exact hs.goto trivial
    · exact hs.goto trivial
  | addHost t h =>
    simp only [Registry.start]
    split
    · exact hs.goto trivial
    · exact hs.goto trivial
  | setS3 t access secret => exact hs.goto rfl
  | setAuth t auth => exact hs.goto rfl
  | _ => exact hs.goto trivial

/-- A step does something to the entries and to the aliases, and keeps
both exactly when it is up to date. -/
def Did (s s' : Registry V) (ok : Bool) : Prop :=
  ∃ p q, EntryStep s s' p ∧ AliasStep s s' q ∧ (ok = true ↔ p ∧ q)

variable {ok : Bool}

theorem did_quiet (hok : ok = true)
    (hentries : s'.entries = s.entries) (hlog : s'.log = s.log) (haliases : s'.aliases = s.aliases)
    (hclaims : s'.claims = s.claims) (hvanished : s'.vanished = s.vanished) : Did s s' ok :=
  ⟨True, True, .kept hentries hlog, .kept haliases hclaims hvanished,
    iff_of_true hok ⟨trivial, trivial⟩⟩

theorem did_goto {pc : RegistryPc V} (hok : ok = true) : Did s (s.goto i pc) ok :=
  did_quiet hok rfl rfl rfl rfl rfl

theorem did_made {o : Option (Tenant × V)}
    (hentries : s'.entries = Function.update s.entries c.tenantRef o)
    (hlog : s'.log = s.log ++ [c]) (haliases : s'.aliases = s.aliases)
    (hclaims : s'.claims = s.claims) (hvanished : s'.vanished = s.vanished)
    (hok : ok = true ↔ o.map Prod.fst = c.effect (s.entry c.tenantRef)) : Did s s' ok :=
  ⟨_, True, .made c o hentries hlog, .kept haliases hclaims hvanished,
    hok.trans (and_iff_left trivial).symm⟩

theorem update_self (s : Registry V) (t : List Char) :
    s.entries = Function.update s.entries t (s.entries t) :=
  (Function.update_eq_self t s.entries).symm

/-- A call that leaves the entry alone is right to when its edit would
leave it as it is. -/
theorem did_left {n : Option Nat} (hc : c.edits = true)
    (hok : ok = true ↔ s.entry c.tenantRef = (s.entry c.tenantRef).map c.edit) :
    Did s (s.succeed i c n) ok := by
  refine did_made (o := s.entries c.tenantRef) (update_self s c.tenantRef) rfl rfl rfl rfl ?_
  rw [RegistryCall.effect_of_edits hc]
  exact hok

theorem addHost_left (t h : List Char) (e : Tenant) :
    e = RegistryCall.edit (.addHost t h) e ↔ h ∈ e.hosts := by
  constructor
  · intro heq
    rw [heq]
    by_cases hin : h ∈ e.hosts <;> simp [RegistryCall.edit, RegistryCall.hosts, hin]
  · intro hin
    simp [RegistryCall.edit, RegistryCall.hosts, hin]

theorem addHost_left_iff (t h : List Char) (o : Option Tenant) :
    o = o.map (RegistryCall.edit (.addHost t h)) ↔ o.all (fun e => h ∈ e.hosts) = true := by
  cases o with
  | none => simp
  | some e => simpa using addHost_left t h e

theorem removeHost_left (hout : h ∉ e.hosts) : e = RegistryCall.edit (.removeHost t h) e := by
  have hf : e.hosts.filter (· ≠ h) = e.hosts := by
    rw [List.filter_eq_self]
    intro h' hh'
    have hne : h' ≠ h := fun heq => hout (heq ▸ hh')
    simpa using hne
  simp only [RegistryCall.edit, RegistryCall.hosts, hf]

theorem did_addEntry {s₁ : Registry V}
    (hentries : s₁.entries = s.entries) (hlog : s₁.log = s.log)
    (halias : ∀ s', s'.aliases = s₁.aliases → s'.claims = s₁.claims →
      s'.vanished = s₁.vanished → AliasStep s s' True)
    (hok : ok = true ↔ (h ∈ e.hosts → (s.entry t).all (fun e' => h ∈ e'.hosts) = true)) :
    Did s (s₁.addEntry i t h e) ok := by
  unfold addEntry
  split
  · rename_i hin
    refine ⟨_, True, .made (.addHost t h) (s.entries t) ?_ (congrArg (· ++ [_]) hlog),
      halias _ rfl rfl rfl, ?_⟩
    · exact hentries.trans (update_self s t)
    · rw [hok, forall_prop_of_true (List.contains_iff_mem.mp hin), and_true]
      exact (addHost_left_iff t h (s.entry t)).symm
  · rename_i hout
    exact ⟨True, True, .kept hentries hlog, halias _ rfl rfl rfl,
      iff_of_true (hok.mpr fun hin => absurd (List.contains_iff_mem.mpr hin) hout) ⟨trivial, trivial⟩⟩

theorem did_dropped (hentries : s'.entries = s.entries)
    (hlog : s'.log = s.log) (haliases : s'.aliases = (s.dropAlias t h).aliases)
    (hclaims : s'.claims = s.claims) (hvanished : s'.vanished = (s.dropAlias t h).vanished) :
    Did s s' ((s.aliases h).all fun a => a.tenantRef = t) := by
  refine ⟨True, _, .kept hentries hlog, .dropped t h haliases hclaims hvanished, ?_⟩
  rw [Option.all_eq_true, true_and]
  simp only [decide_eq_true_eq]

theorem did_deleteRest {s₁ : Registry V} {rest : List (List Char)} (h : ∀ pc, Did s (s₁.goto i pc) ok) : Did s (s₁.deleteRest i t rest) ok := by
  cases rest with
  | nil => exact h _
  | cons host rest => exact h _

theorem did_start : Did s (s.start i c) true := by
  cases c with
  | create e =>
    simp only [Registry.start]
    split
    · exact did_goto rfl
    · exact did_goto rfl
  | addHost t h =>
    simp only [Registry.start]
    split
    · exact did_goto rfl
    · exact did_goto rfl
  | _ => exact did_goto rfl

theorem get_ok {o : Option Tenant} (h : s.get t = .ok o) : s.entry t = o := by
  unfold Registry.get at h
  unfold Registry.entry
  split at h
  · rename_i hnone
    rw [hnone]
    exact Except.ok.inj h
  · rename_i e v hsome
    split at h
    · cases h
    · rw [hsome]
      exact Except.ok.inj h

variable [DecidableEq V]

section Act

variable {s s' : Registry V} {i tries : Nat} {tok v : V} {t host : List Char} {e : Tenant}
  {c : RegistryCall} {rest : List (List Char)}

omit [DecidableEq V] in
theorem Inv.wrote (hs : Inv content s) (htok : content tok = e) :
    Inv content (s.putEntry t (some (e, tok))) := by
  refine hs.putEntry ?_
  intro e' v' he
  cases he
  exact htok

theorem inv_createPut (hs : Inv content s)
    (h : s.act content i tok (.createPut e) = some s') : Inv content s' := by
  simp only [act] at h
  split at h
  · cases h
    exact hs.goto trivial
  · split at h
    · rename_i htok
      cases h
      exact (hs.wrote htok).succeed
    · cases h

theorem inv_addOwner (hs : Inv content s)
    (h : s.act content i tok (.addOwner t host e) = some s') : Inv content s' := by
  cases h
  split
  · exact hs.goto trivial
  · split
    · exact hs.addEntry
    · exact hs.goto trivial

theorem inv_removeGet (hs : Inv content s)
    (h : s.act content i tok (.removeGet t host) = some s') : Inv content s' := by
  cases h
  split
  · exact hs.goto trivial
  · exact hs.succeed
  · split
    · exact hs.goto rfl
    · exact hs.succeed

theorem inv_write (hs : Inv content s)
    (h : s.act content i tok (.write c e) = some s') : Inv content s' := by
  simp only [act] at h
  split at h
  · rename_i htok
    cases h
    exact (hs.wrote htok).succeed
  · cases h

theorem inv_deployGet (hs : Inv content s)
    (h : s.act content i tok (.deployGet t tries) = some s') : Inv content s' := by
  cases h
  split
  · exact hs.goto trivial
  · rename_i e v he
    split
    · exact hs.goto trivial
    · exact hs.goto (hs.sound t e v he)

theorem inv_deployPut (hs : Inv content s)
    (h : s.act content i tok (.deployPut t tries e v) = some s') : Inv content s' := by
  simp only [act] at h
  split at h
  · split at h
    · rename_i htok
      cases h
      exact (hs.wrote htok).succeed
    · cases h
  · cases h
    split
    · exact hs.goto trivial
    · exact hs.goto trivial

theorem inv_deleteOwner (hs : Inv content s)
    (h : s.act content i tok (.deleteOwner t host rest) = some s') : Inv content s' := by
  cases h
  split
  · exact hs.goto trivial
  · split
    · exact hs.goto trivial
    · exact hs.deleteRest

theorem inv_act {pc : RegistryPc V} (hs : Inv content s) (hpc : PcOk content pc)
    (h : s.act content i tok pc = some s') : Inv content s' := by
  cases pc with
  | idle => cases h
  | done r => cases h
  | createPut e => exact inv_createPut hs h
  | addAlias t host e =>
    cases h
    split
    · exact Inv.addEntry ⟨hs.sound, hs.pcs⟩
    · exact hs.goto trivial
  | addOwner t host e => exact inv_addOwner hs h
  | removeOwner t host =>
    cases h
    split
    · exact hs.goto trivial
    · exact hs.goto trivial
    · split
      · exact hs.goto trivial
      · exact hs.goto trivial
  | removeAlias t host =>
    cases h
    exact Inv.goto (s := s.dropAlias t host) ⟨hs.sound, hs.pcs⟩ trivial
  | removeGet t host => exact inv_removeGet hs h
  | setGet c =>
    cases h
    split
    · exact hs.goto trivial
    · exact hs.goto trivial
    · exact hs.goto hpc
  | write c e => exact inv_write hs h
  | deployGet t tries => exact inv_deployGet hs h
  | deployPut t tries e v => exact inv_deployPut hs h
  | addGet t host | deleteGet t =>
    cases h
    split
    · exact hs.goto trivial
    · exact hs.goto trivial
    · exact hs.goto trivial
  | deleteHosts t =>
    cases h
    split
    · exact hs.goto trivial
    · exact hs.deleteRest
  | deleteOwner t host rest => exact inv_deleteOwner hs h
  | deleteAlias t host rest =>
    cases h
    exact Inv.deleteRest (s := s.dropAlias t host) ⟨hs.sound, hs.pcs⟩
  | deleteEntry t =>
    cases h
    exact (hs.putEntry fun e v he => (by cases he)).succeed

theorem did_createPut (h : s.act content i tok (.createPut e) = some s') :
    Did s s' (s.current (.createPut e)) := by
  simp only [act] at h
  split at h
  · cases h
    exact did_goto rfl
  · split at h
    · cases h
      exact did_made (c := .create e) rfl rfl rfl rfl rfl (iff_of_true rfl rfl)
    · cases h

theorem did_addAlias (h : s.act content i tok (.addAlias t host e) = some s') :
    Did s s' (s.current (.addAlias t host e)) := by
  cases h
  split
  · rename_i hnone
    refine did_addEntry rfl rfl (fun s' ha hc hv => .claimed t host ha hc hv) ?_
    by_cases hin : host ∈ e.hosts <;> simp [current, hnone, hin]
  · rename_i a hsome
    exact did_goto (by simp [current, hsome])

theorem did_addOwner (h : s.act content i tok (.addOwner t host e) = some s') :
    Did s s' (s.current (.addOwner t host e)) := by
  cases h
  split
  · rename_i err herr
    exact did_goto (by simp [current, herr, Except.toOption])
  · rename_i owner howner
    split
    · rename_i heq
      refine did_addEntry rfl rfl (fun s' ha hc hv => .kept ha hc hv) ?_
      by_cases hin : host ∈ e.hosts <;> simp [current, howner, heq, hin, Except.toOption]
    · rename_i hne
      exact did_goto (by simp [current, howner, hne, Except.toOption])

theorem did_removeGet (h : s.act content i tok (.removeGet t host) = some s') :
    Did s s' (s.current (.removeGet t host)) := by
  cases h
  split
  · exact did_goto rfl
  · rename_i hget
    exact did_left rfl (iff_of_true rfl (by
      rw [show (RegistryCall.removeHost t host).tenantRef = t from rfl, get_ok hget]
      rfl))
  · rename_i e hget
    split
    · exact did_goto rfl
    · rename_i hout
      exact did_left rfl (iff_of_true rfl (by
        rw [show (RegistryCall.removeHost t host).tenantRef = t from rfl, get_ok hget]
        exact congrArg some (removeHost_left fun hin => hout (List.contains_iff_mem.mpr hin))))

theorem did_write (hpc : PcOk content (.write c e))
    (h : s.act content i tok (.write c e) = some s') : Did s s' (s.current (.write c e)) := by
  simp only [act] at h
  split at h
  · cases h
    refine did_made (c := c) rfl rfl rfl rfl rfl ?_
    rw [RegistryCall.effect_of_edits hpc]
    simp only [current, decide_eq_true_eq]
    exact eq_comm
  · cases h

theorem did_deployPut (hs : Inv content s) (hpc : PcOk content (.deployPut t tries e v))
    (h : s.act content i tok (.deployPut t tries e v) = some s') :
    Did s s' (s.current (.deployPut t tries e v)) := by
  simp only [act] at h
  split at h
  · rename_i htok
    split at h
    · cases h
      obtain ⟨⟨e', v'⟩, he, rfl⟩ := Option.map_eq_some_iff.mp htok
      -- The token of the entry read stands for it.
      obtain rfl : e = e' := hpc.symm.trans (hs.sound t e' v' he)
      refine did_made (c := .noteDeploy t) rfl rfl rfl rfl rfl (iff_of_true rfl ?_)
      rw [show s.entry (RegistryCall.noteDeploy t).tenantRef = some e from by
        simp [entry, RegistryCall.tenantRef, he]]
      rfl
    · cases h
  · cases h
    split
    · exact did_goto rfl
    · exact did_goto rfl

theorem did_act {pc : RegistryPc V} (hs : Inv content s) (hpc : PcOk content pc)
    (h : s.act content i tok pc = some s') : Did s s' (s.current pc) := by
  cases pc with
  | idle => cases h
  | done r => cases h
  | createPut e => exact did_createPut h
  | addAlias t host e => exact did_addAlias h
  | addOwner t host e => exact did_addOwner h
  | removeOwner t host =>
    cases h
    split
    · exact did_goto rfl
    · exact did_goto rfl
    · split
      · exact did_goto rfl
      · exact did_goto rfl
  | removeAlias t host =>
    cases h
    exact did_dropped rfl rfl rfl rfl rfl
  | removeGet t host => exact did_removeGet h
  | write c e => exact did_write hpc h
  | deployPut t tries e v => exact did_deployPut hs hpc h
  | deployGet t tries =>
    cases h
    split
    · exact did_goto rfl
    · split <;> exact did_goto rfl
  | addGet t host | setGet c | deleteGet t =>
    cases h
    split
    · exact did_goto rfl
    · exact did_goto rfl
    · exact did_goto rfl
  | deleteHosts t =>
    cases h
    split
    · exact did_goto rfl
    · exact did_deleteRest fun pc => did_goto rfl
  | deleteOwner t host rest =>
    cases h
    split
    · exact did_goto rfl
    · split
      · exact did_goto rfl
      · exact did_deleteRest fun pc => did_goto rfl
  | deleteAlias t host rest =>
    cases h
    exact did_deleteRest fun pc => did_dropped rfl rfl rfl rfl rfl
  | deleteEntry t =>
    cases h
    exact did_made (c := .delete t) (o := none) rfl rfl rfl rfl rfl (iff_of_true rfl rfl)

end Act

theorem inv_next {l : RegistryLabel V} (hs : Inv content s)
    (h : next content s l = some s') : Inv content s' := by
  cases l with
  | call i c =>
    simp only [next] at h
    split at h
    · cases h
      exact hs.start
    · cases h
      exact hs.start
    · cases h
  | op i ok tok =>
    cases ok with
    | true => exact inv_act hs (hs.pcs i) h
    | false =>
      obtain ⟨s₁, -, rfl⟩ := Option.map_eq_some_iff.mp h
      exact hs.goto trivial
  | stop i =>
    cases h
    exact hs.goto trivial

theorem next_did {l : RegistryLabel V} (hs : Inv content s)
    (h : next content s l = some s') : Did s s' (s.upToDate l) := by
  cases l with
  | call i c =>
    simp only [next] at h
    split at h
    · cases h
      exact did_start
    · cases h
      exact did_start
    · cases h
  | op i ok tok =>
    cases ok with
    | true => exact did_act hs (hs.pcs i) h
    | false =>
      obtain ⟨s₁, -, rfl⟩ := Option.map_eq_some_iff.mp h
      exact did_goto rfl
  | stop i =>
    cases h
    exact did_goto rfl

/-! ## Whole runs -/

/-- Nobody has called anything yet. Entries may be there already, and
aliases whose claims are known. -/
structure Init (content : V → Tenant) (s : Registry V) : Prop where
  sound : ∀ t e v, s.entries t = some (e, v) → content v = e
  pcs : ∀ i, s.pcs i = .idle
  log : s.log = []
  claims : ∀ h a, s.aliases h = some a → s.claims h = some a.tenantRef
  vanished : s.vanished = []

omit [DecidableEq V] in
theorem Init.inv (h : Init content s) : Inv content s where
  sound := h.sound
  pcs i := by rw [h.pcs i]; trivial

omit [DecidableEq V] in
theorem Init.holds (h : Init content s) : EntriesHold s.entry s ∧ AliasesHold s := by
  refine ⟨fun t => ?_, h.claims, fun x hx => ?_⟩
  · rw [h.log, expected, life, List.foldl_nil, Option.map_map]
    cases s.entry t with
    | none => rfl
    | some e => rfl
  · rw [h.vanished] at hx
    cases hx

/-- Throughout a run every entry holds in each field what the last call
that set it and returned left there, hostnames route to the tenant that
claimed them and aliases go only in calls for their owner, exactly when
every store operation of the run is up to date. -/
theorem registry_holds {s₀ s : Registry V} {ls : List (RegistryLabel V)} (h0 : Init content s₀)
    (hr : run (next content) s₀ ls = some s) :
    Always (next content) (fun s => EntriesHold s₀.entry s ∧ AliasesHold s) s₀ ls
      ↔ Meets (next content) (fun s l => s.upToDate l = true) s₀ ls := by
  have hstep : ∀ (s : Registry V) l s', Inv content s →
      EntriesHold s₀.entry s ∧ AliasesHold s → next content s l = some s' →
      ((EntriesHold s₀.entry s' ∧ AliasesHold s') ↔ s.upToDate l = true) := by
    rintro s l s' hs ⟨he, ha⟩ hn
    obtain ⟨p, q, hp, hq, hok⟩ := next_did hs hn
    rw [hok, hp.holds he, hq.holds ha]
  exact always_iff_meets (fun _ _ _ => inv_next) hstep h0.inv h0.holds hr

def acme : Tenant := .new ['p'] "super-secret-jwt-token" 1767100000

def umbrella : Tenant := .new ['q'] "another-secret-jwt-token" 1767100001

def apiHost : List Char := ['a', '.', 'p']

/-- Two tenants, the first of which has a hostname. -/
def twoTenants : Registry Tenant where
  entries t := if t = ['p'] then some ({ acme with hosts := [apiHost] }, { acme with hosts := [apiHost] })
    else if t = ['q'] then some (umbrella, umbrella) else none
  aliases h := if h = apiHost then some ⟨registryFormat, apiHost, ['p']⟩ else none
  pcs _ := .idle
  log := []
  claims h := if h = apiHost then some ['p'] else none
  vanished := []

theorem init_twoTenants : Init id twoTenants where
  sound t e v h := by
    simp only [twoTenants] at h
    split at h
    · cases h
      rfl
    · split at h
      · cases h
        rfl
      · cases h
  pcs _ := rfl
  log := rfl
  claims h a ha := by
    simp only [twoTenants] at ha ⊢
    split at ha
    · rename_i heq
      cases ha
      rw [if_pos heq]
    · cases ha
  vanished := rfl

/-- An S3 pair is set, a deploy noted and a hostname removed, one call
after the other. -/
def inTurn : List (RegistryLabel Tenant) :=
  let e₀ := { acme with hosts := [apiHost] }
  let e₁ := RegistryCall.edit (.setS3 ['p'] "key" "secret") e₀
  let e₂ := RegistryCall.edit (.noteDeploy ['p']) e₁
  let e₃ := RegistryCall.edit (.removeHost ['p'] apiHost) e₂
  [.call 0 (.setS3 ['p'] "key" "secret"), .op 0 true e₀, .op 0 true e₁,
   .call 1 (.noteDeploy ['p']), .op 1 true e₀, .op 1 true e₂,
   .call 0 (.removeHost ['p'] apiHost), .op 0 true e₀, .op 0 true e₀, .op 0 true e₀, .op 0 true e₃]

theorem registry_holds_inTurn :
    ∃ s, run (next id) twoTenants inTurn = some s
      ∧ s.log.length = 3 ∧ (s.entry ['p']).map Tenant.deployed = some 1
      ∧ Always (next id) (fun s => EntriesHold twoTenants.entry s ∧ AliasesHold s)
          twoTenants inTurn := by
  have hr : run (next id) twoTenants inTurn = some _ := rfl
  exact ⟨_, hr, rfl, rfl, (registry_holds init_twoTenants hr).mpr (by decide)⟩

/-- A deploy is noted between the read and the put of `set_s3`. -/
def lostDeploy : List (RegistryLabel Tenant) :=
  let e₀ := { acme with hosts := [apiHost] }
  [.call 0 (.setS3 ['p'] "key" "secret"), .op 0 true e₀,
   .call 1 (.noteDeploy ['p']), .op 1 true e₀, .op 1 true (RegistryCall.edit (.noteDeploy ['p']) e₀),
   .op 0 true (RegistryCall.edit (.setS3 ['p'] "key" "secret") e₀)]

/-- A hostname is removed and claimed by another tenant between the owner
check and the delete of a second removal. -/
def lostAlias : List (RegistryLabel Tenant) :=
  let e₀ := { acme with hosts := [apiHost] }
  [.call 0 (.removeHost ['p'] apiHost), .op 0 true e₀,
   .call 1 (.removeHost ['p'] apiHost), .op 1 true e₀, .op 1 true e₀, .op 1 true e₀,
   .op 1 true (RegistryCall.edit (.removeHost ['p'] apiHost) e₀),
   .call 2 (.addHost ['q'] apiHost), .op 2 true e₀, .op 2 true e₀,
   .op 2 true (RegistryCall.edit (.addHost ['q'] apiHost) umbrella), .op 0 true e₀]

/-- Both calls of the first run returned and the entry counts no deploy.
In the second a call for one tenant deletes the alias of another, whose
`add_host` has returned. -/
theorem registry_races :
    (∃ s, run (next id) twoTenants lostDeploy = some s
        ∧ s.log = [.noteDeploy ['p'], .setS3 ['p'] "key" "secret"]
        ∧ (s.entry ['p']).map Tenant.deployed = some 0
        ∧ (expected twoTenants.entry s.log ['p']).map Tenant.deployed = some 1
        ∧ ¬ EntriesHold twoTenants.entry s)
      ∧ ∃ s, run (next id) twoTenants lostAlias = some s
        ∧ s.log = [.removeHost ['p'] apiHost, .addHost ['q'] apiHost]
        ∧ s.vanished = [(apiHost, ['p'], ['p']), (apiHost, ['q'], ['p'])]
        ∧ ¬ AliasesHold s := by
  have hr : run (next id) twoTenants lostDeploy = some _ := rfl
  have hr' : run (next id) twoTenants lostAlias = some _ := rfl
  refine ⟨⟨_, hr, rfl, rfl, rfl, fun hall => ?_⟩, _, hr', rfl, rfl, fun hall => ?_⟩
  · have hdep := congrArg (Option.map Tenant.deployed) (hall ['p'])
    exact absurd hdep (by decide)
  · exact absurd (hall.2 (apiHost, ['q'], ['p']) (.tail _ List.mem_cons_self))
      (by decide)

end Registry

end Zou
