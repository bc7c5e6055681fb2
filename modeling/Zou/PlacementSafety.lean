import Mathlib.Data.List.Nodup
import Zou.Placement

/-!
# Publication of the placement map

A swap lands over exactly the map its publisher read, so the map goes
through the landings one after the other and each of them is one edit on
top of the one before (`Chained`). A call that returns `Ok` has landed.
It leaves its loop when it hears that it has, so it lands at most once
unless the store's client sent its put again: then the conflict it hears
of is with itself, and it applies its edit to the map that has it already.
Every copy was loaded from the object, whose version only goes up, so a
copy that is loaded again never goes back.
-/

namespace Zou

variable {m : ShardMap}

open Cell Trace

@[simp] theorem MapEdit.published_version (e : MapEdit) (seen : List ShardMap) (now : Nat)
    (m : ShardMap) : (e.published seen now m).version = m.version + 1 :=
  congrArg (· + 1) (e.version_eq seen m)

theorem ShardMap.fromJson_ok {m' : ShardMap} (h : m.fromJson = .ok m') : m' = m := by
  unfold ShardMap.fromJson at h
  split at h
  · cases h
  · exact (Except.ok.inj h).symm

/-! ## Landings in a row -/

/-- Each landing starts from what the one before left, the first from
`m₀`, and the last one left `m`. -/
def Chained : ShardMap → List Landing → ShardMap → Prop
  | m₀, [], m => m = m₀
  | m₀, l :: ls, m => l.before = m₀ ∧ Chained l.map ls m

variable {m₀ : ShardMap} {ls : List Landing}

theorem Chained.snoc {l : Landing}
    (h : Chained m₀ ls m) (hl : l.before = m) : Chained m₀ (ls ++ [l]) l.map := by
  induction ls generalizing m₀ with
  | nil => exact ⟨hl.trans h, rfl⟩
  | cons x xs ih => exact ⟨h.1, ih h.2⟩

/-- Versions count the landings. -/
theorem Chained.version (h : Chained m₀ ls m)
    (hup : ∀ l ∈ ls, l.map.version = l.before.version + 1) :
    m.version = m₀.version + ls.length := by
  induction ls generalizing m₀ with
  | nil => exact congrArg ShardMap.version h
  | cons x xs ih =>
    rw [ih h.2 fun l hl => hup l (List.mem_cons_of_mem x hl), hup x List.mem_cons_self, h.1,
      List.length_cons]
    omega

theorem Chained.mem (h : Chained m₀ ls m) : m ∈ m₀ :: ls.map Landing.map := by
  induction ls generalizing m₀ with
  | nil => exact List.mem_singleton.mpr h
  | cons x xs ih => exact .tail _ (ih h.2)

theorem Chained.rising (h : Chained m₀ ls m)
    (hup : ∀ l ∈ ls, l.map.version = l.before.version + 1) :
    (m₀ :: ls.map Landing.map).Pairwise fun a b => a.version < b.version := by
  induction ls generalizing m₀ with
  | nil => exact List.pairwise_singleton ..
  | cons x xs ih =>
    have hrest := ih h.2 fun l hl => hup l (List.mem_cons_of_mem x hl)
    have hx : m₀.version < x.map.version := by
      rw [hup x List.mem_cons_self, h.1]
      exact Nat.lt_succ_self _
    refine List.pairwise_cons.mpr ⟨fun b hb => ?_, hrest⟩
    rcases List.mem_cons.mp hb with rfl | hb
    · exact hx
    · exact hx.trans ((List.pairwise_cons.mp hrest).1 b hb)

theorem Chained.eq_of_version {a b : ShardMap} (h : Chained m₀ ls m)
    (hup : ∀ l ∈ ls, l.map.version = l.before.version + 1) (ha : a ∈ m₀ :: ls.map Landing.map)
    (hb : b ∈ m₀ :: ls.map Landing.map) (hv : a.version = b.version) : a = b :=
  List.inj_on_of_nodup_map
    (List.pairwise_map.mpr ((h.rising hup).imp fun hlt => Nat.ne_of_lt hlt)) ha hb hv

theorem MapServer.answers_ok {score : String → String → Nat → Nat} {sv : MapServer}
    {tenantRef : String} {shard v : Nat} (h : sv.answers score tenantRef shard = .ok v) :
    ∃ n, sv.map.nodeFor score tenantRef shard = some n ∧ n.id = sv.node ∧ sv.map.version = v := by
  unfold MapServer.answers at h
  split at h
  · rename_i n hn
    split at h
    · exact ⟨n, hn, ‹_›, Except.ok.inj h⟩
    · cases h
  · cases h

namespace PublishPc

variable {V : Type}

def call : PublishPc V → Option Nat
  | .idle => none
  | .get c _ | .put c _ _ _ _ _ | .history c _ => some c

def hasLanded : PublishPc V → Bool
  | .history _ _ => true
  | _ => false

end PublishPc

namespace Fleet

variable {V : Type} {content : V → ShardMap} {m₀ : ShardMap}

/-! ## The object -/

/-- `l` is what call `l.call` makes of the map it read. -/
def OfCall (calls : List MapEdit) (l : Landing) : Prop :=
  ∃ e, calls[l.call]? = some e ∧ l.map = e.published l.seen l.now l.read

theorem OfCall.mono {calls : List MapEdit} {l : Landing} (e : MapEdit) (h : OfCall calls l) :
    OfCall (calls ++ [e]) l := by
  obtain ⟨e', he, hm⟩ := h
  refine ⟨e', ?_, hm⟩
  rw [List.getElem?_append_left (List.getElem?_eq_some_iff.mp he).1]
  exact he

/-- A put under way is the call's edit of the map it read, which is what
its token stands for. -/
def PutOk (content : V → ShardMap) (calls : List MapEdit) : PublishPc V → Prop
  | .put c seen now read map expected =>
    read = expected.elim .empty content ∧ OfCall calls ⟨c, seen, now, read, read, map⟩
  | _ => True

structure Ledger (content : V → ShardMap) (m₀ : ShardMap) (s : Fleet V) : Prop where
  sound : Sound content s.cell
  puts : ∀ i, PutOk content s.calls (s.pcs i)
  chain : Chained m₀ s.landed (view s.cell)
  made : ∀ l ∈ s.landed, l.read = l.before ∧ OfCall s.calls l

variable {cell : Option (ShardMap × V)}

theorem view_content (hs : Sound content cell) :
    (cell.map Prod.snd).elim .empty content = view cell := by
  cases cell with
  | none => rfl
  | some p => exact hs p.1 p.2 rfl

variable {m : ShardMap}

theorem load_ok {ok : Bool} (h : load cell ok = .ok m) : m = view cell := by
  unfold load at h
  split at h
  · exact ShardMap.fromJson_ok h
  · cases h

theorem load_toOption {ok : Bool} (h : (load cell ok).toOption = some m) : m = view cell := by
  cases hl : load cell ok with
  | error e => rw [hl] at h; cases h
  | ok m' =>
    rw [hl] at h
    cases h
    exact load_ok hl

/-! ## Steps -/

/-- The copies after a step: each is as it was, or the map the object
holds. -/
def Reloaded (now : ShardMap) (old new : Nat → Option ShardMap) : Prop :=
  ∀ j, new j = old j ∨ new j = some now

variable {now : ShardMap} {old : Nat → Option ShardMap}

theorem reloaded_update {j : Nat}
    (h : some m = old j ∨ m = now) : Reloaded now old (Function.update old j (some m)) := by
  intro j'
  rw [Function.update_apply]
  split
  · rename_i heq
    rw [heq]
    rcases h with h | rfl
    · exact .inl h
    · exact .inr rfl
  · exact .inl rfl

/-- The servers' copies. -/
def copies (s : Fleet V) (k : Nat) : Option ShardMap := (s.servers k).map MapServer.map

/-- Everything a step can do. -/
inductive Did (content : V → ShardMap) (l : FleetLabel V) (s s' : Fleet V) : Prop where
  | begun (i : Nat) (e : MapEdit) (idle : s.pcs i = .idle)
      (eq : s' = { s with calls := s.calls ++ [e] }.goto i (.get s.calls.length []))
  | tried (i call : Nat) (pc : PublishPc V) (before : (s.pcs i).call = some call)
      (pending : (s.pcs i).hasLanded = false) (after : pc.call = some call)
      (still : pc.hasLanded = false) (put : PutOk content s.calls pc) (eq : s' = s.goto i pc)
  | landed (i call : Nat) (seen : List ShardMap) (now : Nat) (read map : ShardMap)
      (expected : Option V) (tok : V) (s₁ : Fleet V)
      (pc : s.pcs i = .put call seen now read map expected)
      (expects : s.cell.map Prod.snd = expected) (stands : content tok = map)
      (mid : s₁ = { s with
        cell := some (map, tok)
        landed := s.landed ++ [⟨call, seen, now, read, view s.cell, map⟩] })
      (eq : s' = s₁.goto i (.history call map) ∨ s' = s₁.answer i call (.error .store)
        ∨ (∃ i tok, l = .resent i tok) ∧ s' = s₁.goto i (.get call (seen ++ [read])))
  | failed (i call : Nat) (e : PlacementError) (before : (s.pcs i).call = some call)
      (eq : s' = s.answer i call (.error e))
  | answered (i call : Nat) (map : ShardMap) (history : Nat → Option ShardMap)
      (pc : s.pcs i = .history call map)
      (eq : s' = { s with history := history }.answer i call (.ok map))
  | cached (clients : Nat → Option ShardMap) (servers : Nat → Option MapServer)
      (eq : s' = { s with clients := clients, servers := servers })
      (fresh : Reloaded (view s.cell) s.clients clients)
      (fresh' : Reloaded (view s.cell) s.copies s'.copies)

theorem absorbed_cases (cell : Option (ShardMap × V)) (ok : Bool) (m : ShardMap) (version : Nat) :
    absorbed cell ok m version = m ∨ absorbed cell ok m version = view cell := by
  unfold absorbed
  split
  · cases hl : load cell ok with
    | error e => exact .inl rfl
    | ok m' => exact .inr (load_ok hl)
  · exact .inl rfl

variable {s : Fleet V}

theorem copies_update {k : Nat} {sv : MapServer}
    (h : some sv.map = s.copies k ∨ sv.map = view s.cell) : Reloaded (view s.cell) s.copies
      (copies { s with servers := Function.update s.servers k (some sv) }) := by
  have heq : copies { s with servers := Function.update s.servers k (some sv) }
      = Function.update s.copies k (some sv.map) := by
    funext k'
    simp only [copies, Function.update_apply]
    split <;> rfl
  rw [heq]
  exact reloaded_update h

theorem reloaded_refl (now : ShardMap) (f : Nat → Option ShardMap) : Reloaded now f f :=
  fun _ => .inl rfl

variable [DecidableEq V] {l : FleetLabel V} {s' : Fleet V} {i : Nat}

theorem swap_did {call : Nat} {seen : List ShardMap} {now : Nat} {read map : ShardMap}
    {expected : Option V} {io : Io V} (hpc : s.pcs i = .put call seen now read map expected)
    (h : s.swap content i call seen now read map expected io = some s') : Did content l s s' := by
  obtain ⟨⟨cell, r⟩, hput, h⟩ := Option.bind_eq_some_iff.mp h
  have hcall : (s.pcs i).call = some call := by rw [hpc]; rfl
  have hopen : (s.pcs i).hasLanded = false := by rw [hpc]; rfl
  rcases putIfMatch_swap hput with ⟨tok, hexp, rfl, hc, hio⟩ | ⟨rfl, hr, hidle⟩
  · have hl : s.lands expected io = true := by
      rcases hio with ⟨rfl, -⟩ | ⟨rfl, -⟩ <;> simpa [lands] using hexp
    rw [hl] at h
    refine .landed i call seen now read map expected tok _ hpc hexp hc rfl ?_
    rcases hio with ⟨-, rfl⟩ | ⟨-, rfl⟩
    · exact .inl (Option.some.inj h).symm
    · exact .inr (.inl (Option.some.inj h).symm)
  · have hl : s.lands expected io = false := by
      rcases hidle with rfl | hne
      · rfl
      · cases io with
        | fail => rfl
        | reply tok => simpa [lands] using hne
        | lost tok => simpa [lands] using hne
    rw [hl] at h
    rcases hr with rfl | rfl
    · exact .tried i call (.get call (seen ++ [read])) hcall hopen rfl rfl trivial
        (Option.some.inj h).symm
    · exact .failed i call .store hcall (Option.some.inj h).symm

theorem swapTwice_did {call : Nat} {seen : List ShardMap} {now : Nat} {read map : ShardMap}
    {expected : Option V} {tok : V} (hpc : s.pcs i = .put call seen now read map expected)
    (h : s.swapTwice content i call seen now read map expected tok = some s') :
    Did content (.resent i tok) s s' := by
  unfold swapTwice at h
  split at h
  · rename_i hgo
    exact .landed i call seen now read map expected tok _ hpc hgo.1 hgo.2 rfl
      (.inr (.inr ⟨⟨i, tok, rfl⟩, (Option.some.inj h).symm⟩))
  · cases h

theorem next_did (hs : Sound content s.cell)
    (h : next content s l = some s') : Did content l s s' := by
  cases l with
  | publish i e =>
    simp only [next] at h
    split at h
    · rename_i hpc
      exact .begun i e hpc (Option.some.inj h).symm
    · cases h
  | get i now ok =>
    simp only [next] at h
    split at h
    · rename_i call seen hpc
      obtain ⟨e, he, rfl⟩ := Option.map_eq_some_iff.mp h
      have hcall : (s.pcs i).call = some call := by rw [hpc]; rfl
      cases hl : load s.cell ok with
      | error err => exact .failed i call err hcall rfl
      | ok m =>
        have hread : m = (s.cell.map Prod.snd).elim .empty content := by
          rw [view_content hs]
          exact load_ok hl
        exact .tried i call
          (.put call seen now m (e.published seen now m) (s.cell.map Prod.snd)) hcall
          (by rw [hpc]; rfl) rfl rfl ⟨hread, e, he, rfl⟩ rfl
    · cases h
  | put i io =>
    simp only [next] at h
    split at h
    · rename_i hpc
      exact swap_did hpc h
    · cases h
  | resent i tok =>
    simp only [next] at h
    split at h
    · rename_i hpc
      exact swapTwice_did hpc h
    · cases h
  | history i ok =>
    simp only [next] at h
    split at h
    · rename_i call map hpc
      cases h
      cases ok with
      | true => exact .answered i call map _ hpc rfl
      | false => exact .answered i call map s.history hpc rfl
    · cases h
  | client j ok =>
    simp only [next] at h
    split at h
    · obtain ⟨m, hm, rfl⟩ := Option.map_eq_some_iff.mp h
      exact .cached _ _ rfl (reloaded_update (.inr (load_toOption hm))) (reloaded_refl _ _)
    · cases h
  | absorb j version ok =>
    obtain ⟨m, hm, rfl⟩ := Option.map_eq_some_iff.mp h
    refine .cached _ _ rfl (reloaded_update ?_) (reloaded_refl _ _)
    rcases absorbed_cases s.cell ok m version with heq | heq
    · exact .inl (by rw [heq, hm])
    · exact .inr heq
  | server k node ok =>
    simp only [next] at h
    split at h
    · obtain ⟨m, hm, rfl⟩ := Option.map_eq_some_iff.mp h
      exact .cached _ _ rfl (reloaded_refl _ _) (copies_update (.inr (load_toOption hm)))
    · cases h
  | refresh k ok =>
    obtain ⟨sv, hsv, rfl⟩ := Option.map_eq_some_iff.mp h
    refine .cached _ _ rfl (reloaded_refl _ _) (copies_update ?_)
    cases hl : load s.cell ok with
    | error e => exact .inl (by rw [copies, hsv]; rfl)
    | ok m => exact .inr (load_ok hl)
  | admitRpc k version ok =>
    obtain ⟨sv, hsv, rfl⟩ := Option.map_eq_some_iff.mp h
    refine .cached _ _ rfl (reloaded_refl _ _) (copies_update ?_)
    rcases absorbed_cases s.cell ok sv.map version with heq | heq
    · exact .inl (by rw [copies, hsv, heq]; rfl)
    · exact .inr heq

/-! ## The map goes through the landings -/

variable {pc : PublishPc V}

omit [DecidableEq V] in
theorem pcs_goto {P : PublishPc V → Prop}
    (hpc : P pc) (hs : ∀ j, P (s.pcs j)) : ∀ j, P ((s.goto i pc).pcs j) := by
  intro j
  simp only [goto, Function.update_apply]
  split
  · exact hpc
  · exact hs j

omit [DecidableEq V] in
theorem PutOk.mono {calls : List MapEdit} (e : MapEdit)
    (h : PutOk content calls pc) : PutOk content (calls ++ [e]) pc := by
  cases pc with
  | put c seen now read map expected => exact ⟨h.1, h.2.mono e⟩
  | _ => trivial

omit [DecidableEq V] in
theorem Ledger.goto (h : Ledger content m₀ s)
    (hpc : PutOk content s.calls pc) : Ledger content m₀ (s.goto i pc) :=
  ⟨h.sound, pcs_goto hpc h.puts, h.chain, h.made⟩

omit [DecidableEq V] in
theorem Ledger.did (h : Ledger content m₀ s) (hd : Did content l s s') : Ledger content m₀ s' := by
  cases hd with
  | begun i e idle eq =>
    have hcalls : Ledger content m₀ { s with calls := s.calls ++ [e] } :=
      ⟨h.sound, fun i => (h.puts i).mono e, h.chain,
        fun l hl => ⟨(h.made l hl).1, (h.made l hl).2.mono e⟩⟩
    rw [eq]
    exact hcalls.goto trivial
  | tried i call pc before pending after still put eq =>
    rw [eq]
    exact h.goto put
  | landed i call seen now read map expected tok s₁ pc expects stands mid eq =>
    have hput := h.puts i
    rw [pc] at hput
    obtain ⟨hread, hof⟩ := hput
    have hview : read = view s.cell := by rw [hread, ← expects, view_content h.sound]
    have hmid : Ledger content m₀ s₁ := by
      rw [mid]
      refine ⟨?_, h.puts, ?_, ?_⟩
      · intro m v hc
        cases hc
        exact stands
      · exact h.chain.snoc rfl
      · intro l hl
        rcases List.mem_append.mp hl with hold | hlast
        · exact h.made l hold
        · cases List.mem_singleton.mp hlast
          exact ⟨hview, hof⟩
    rcases eq with rfl | rfl | ⟨-, rfl⟩
    · exact hmid.goto trivial
    · exact Ledger.goto (s := { s₁ with returned := _ })
        ⟨hmid.sound, hmid.puts, hmid.chain, hmid.made⟩ trivial
    · exact hmid.goto trivial
  | failed i call e before eq =>
    rw [eq]
    exact Ledger.goto (s := { s with returned := _ })
      ⟨h.sound, h.puts, h.chain, h.made⟩ trivial
  | answered i call map history pc eq =>
    rw [eq]
    exact Ledger.goto (s := { s with history := history, returned := _ })
      ⟨h.sound, h.puts, h.chain, h.made⟩ trivial
  | cached clients servers eq fresh fresh' =>
    rw [eq]
    exact ⟨h.sound, h.puts, h.chain, h.made⟩

/-! ## A call that returned `Ok` has landed -/

/-- A thread that is past its swap has landed with its map. -/
def Backed (ls : List Landing) : PublishPc V → Prop
  | .history c map => ∃ l ∈ ls, l.call = c ∧ l.map = map
  | _ => True

omit [DecidableEq V] in
theorem Backed.mono {ls : List Landing} (l : Landing) (h : Backed ls pc) :
    Backed (ls ++ [l]) pc := by
  cases pc with
  | history c map =>
    obtain ⟨l', hl', hrest⟩ := h
    exact ⟨l', List.mem_append_left _ hl', hrest⟩
  | _ => trivial

structure Heard (s : Fleet V) : Prop where
  done : ∀ i, Backed s.landed (s.pcs i)
  answers : ∀ c m, (c, .ok m) ∈ s.returned → ∃ l ∈ s.landed, l.call = c ∧ l.map = m

omit [DecidableEq V] in
theorem Heard.goto (h : Heard s) (hpc : Backed s.landed pc) : Heard (s.goto i pc) :=
  ⟨pcs_goto hpc h.done, h.answers⟩

omit [DecidableEq V] in
/-- A call answers: with an error, or with the map it has landed. -/
theorem Heard.answer {c : Nat} {r : Except PlacementError ShardMap} (h : Heard s)
    (hr : ∀ m, r = .ok m → ∃ l ∈ s.landed, l.call = c ∧ l.map = m) : Heard (s.answer i c r) := by
  refine Heard.goto (s := { s with returned := _ }) ⟨h.done, fun c' m hm => ?_⟩ trivial
  rcases List.mem_append.mp hm with hold | hnew
  · exact h.answers c' m hold
  · obtain ⟨rfl, rfl⟩ := Prod.mk.inj (List.mem_singleton.mp hnew)
    exact hr m rfl

omit [DecidableEq V] in
theorem Heard.did (h : Heard s) (hd : Did content l s s') : Heard s' := by
  cases hd with
  | begun i e idle eq =>
    rw [eq]
    exact Heard.goto (s := { s with calls := _ }) ⟨h.done, h.answers⟩ trivial
  | tried i call pc before pending after still put eq =>
    rw [eq]
    refine h.goto ?_
    cases pc with
    | history c map => cases still
    | _ => trivial
  | landed i call seen now read map expected tok s₁ pc expects stands mid eq =>
    have hmid : Heard s₁ := by
      rw [mid]
      refine ⟨fun j => (h.done j).mono _, fun c m hm => ?_⟩
      obtain ⟨l', hl', hrest⟩ := h.answers c m hm
      exact ⟨l', List.mem_append_left _ hl', hrest⟩
    rcases eq with rfl | rfl | ⟨-, rfl⟩
    · refine hmid.goto ⟨⟨call, seen, now, read, view s.cell, map⟩, ?_, rfl, rfl⟩
      rw [mid]
      exact List.mem_append_right _ (List.mem_singleton.mpr rfl)
    · exact hmid.answer nofun
    · exact hmid.goto trivial
  | failed i call e before eq =>
    rw [eq]
    exact h.answer nofun
  | answered i call map history pc eq =>
    rw [eq]
    have hdone := h.done i
    rw [pc] at hdone
    refine Heard.answer (s := { s with history := history }) ⟨h.done, h.answers⟩ fun m hm => ?_
    cases hm
    exact hdone
  | cached clients servers eq fresh fresh' =>
    rw [eq]
    exact ⟨h.done, h.answers⟩

/-! ## A call lands at most once -/

/-- Calls under way are apart, and none of them has landed before it says
so. -/
structure Open (s : Fleet V) : Prop where
  bound : ∀ i c, (s.pcs i).call = some c → c < s.calls.length
  apart : ∀ i j c, (s.pcs i).call = some c → (s.pcs j).call = some c → i = j
  pending : ∀ i c, (s.pcs i).call = some c → (s.pcs i).hasLanded = false →
    c ∉ s.landed.map Landing.call
  known : ∀ l ∈ s.landed, l.call < s.calls.length
  once : (s.landed.map Landing.call).Nodup

omit [DecidableEq V] in
theorem goto_pcs {j : Nat} : (s.goto i pc).pcs j = if j = i then pc else s.pcs j :=
  Function.update_apply ..

omit [DecidableEq V] in
/-- A thread moves on within its call, or ends it. -/
theorem Open.goto (h : Open s)
    (hcall : ∀ c, pc.call = some c → (s.pcs i).call = some c ∧ pc.hasLanded = false
      ∧ (s.pcs i).hasLanded = false) : Open (s.goto i pc) := by
  have hc : ∀ j c, ((s.goto i pc).pcs j).call = some c → (s.pcs j).call = some c := by
    intro j c hj
    rw [goto_pcs] at hj
    split at hj
    · rename_i heq
      rw [heq]
      exact (hcall c hj).1
    · exact hj
  refine ⟨fun j c hj => h.bound j c (hc j c hj),
    fun j k c hj hk => h.apart j k c (hc j c hj) (hc k c hk), ?_, h.known, h.once⟩
  intro j c hj hl
  refine h.pending j c (hc j c hj) ?_
  rw [goto_pcs] at hj hl
  split at hl
  · rename_i heq
    rw [if_pos heq] at hj
    rw [heq]
    exact (hcall c hj).2.2
  · exact hl

omit [DecidableEq V] in
/-- A call lands and goes on to its history copy, or is told it failed. -/
theorem Open.land {s₁ : Fleet V} {l : Landing} (h : Open s) (hcall : (s.pcs i).call = some l.call)
    (hopen : (s.pcs i).hasLanded = false) (hcalls : s₁.calls = s.calls)
    (hlanded : s₁.landed = s.landed ++ [l]) (hpcs : s₁.pcs = Function.update s.pcs i pc)
    (hpc : pc = .history l.call l.map ∨ pc = .idle) : Open s₁ := by
  have hpc' : ∀ j, s₁.pcs j = if j = i then pc else s.pcs j := fun j => by
    rw [hpcs]
    exact Function.update_apply ..
  have hc : ∀ j c, (s₁.pcs j).call = some c → (s.pcs j).call = some c := by
    intro j c hj
    rw [hpc'] at hj
    split at hj
    · rename_i heq
      rw [heq, hcall]
      rcases hpc with rfl | rfl
      · exact hj
      · cases hj
    · exact hj
  refine ⟨?_, fun j k c hj hk => h.apart j k c (hc j c hj) (hc k c hk), ?_, ?_, ?_⟩
  · intro j c hj
    rw [hcalls]
    exact h.bound j c (hc j c hj)
  · intro j c hj hl hin
    have hne : j ≠ i := by
      rintro rfl
      rw [hpc', if_pos rfl] at hl hj
      rcases hpc with rfl | rfl
      · cases hl
      · cases hj
    have hold := hc j c hj
    rw [hpc', if_neg hne] at hl
    rw [hlanded, List.map_append] at hin
    rcases List.mem_append.mp hin with hin | hin
    · exact h.pending j c hold hl hin
    · cases List.mem_singleton.mp hin
      exact hne (h.apart j i _ hold hcall)
  · intro l' hl'
    rw [hcalls]
    rw [hlanded] at hl'
    rcases List.mem_append.mp hl' with hold | hnew
    · exact h.known l' hold
    · cases List.mem_singleton.mp hnew
      exact h.bound i _ hcall
  · rw [hlanded, List.map_append]
    refine List.nodup_append.mpr ⟨h.once, by simp, ?_⟩
    intro c hin c' hin' heq
    cases List.mem_singleton.mp hin'
    exact h.pending i _ hcall hopen (heq ▸ hin)

omit [DecidableEq V] in
theorem Open.begun {e : MapEdit} (h : Open s) :
    Open ({ s with calls := s.calls ++ [e] }.goto i (.get s.calls.length [])) := by
  have hpc : ∀ j, (({ s with calls := s.calls ++ [e] } : Fleet V).goto i
      (.get s.calls.length [])).pcs j = if j = i then .get s.calls.length [] else s.pcs j :=
    fun j => goto_pcs
  have hlen : (s.calls ++ [e]).length = s.calls.length + 1 := by simp
  -- The number of the new call is above those of the others.
  have hnew : ∀ j, (s.pcs j).call ≠ some s.calls.length := fun j hj =>
    Nat.lt_irrefl _ (h.bound j _ hj)
  refine ⟨?_, ?_, ?_, ?_, h.once⟩
  · intro j c hj
    show c < (s.calls ++ [e]).length
    rw [hlen]
    rw [hpc] at hj
    split at hj
    · cases hj
      exact Nat.lt_succ_self _
    · exact Nat.lt_succ_of_lt (h.bound j c hj)
  · intro j k c hj hk
    rw [hpc] at hj hk
    split at hj
    · rename_i hji
      split at hk
      · rename_i hki
        rw [hji, hki]
      · cases hj
        exact absurd hk (hnew k)
    · split at hk
      · cases hk
        exact absurd hj (hnew j)
      · exact h.apart j k c hj hk
  · intro j c hj hl
    rw [hpc] at hj hl
    split at hj
    · cases hj
      intro hin
      obtain ⟨l, hl, heq⟩ := List.mem_map.mp hin
      exact Nat.lt_irrefl _ (heq ▸ h.known l hl)
    · rename_i hne
      rw [if_neg hne] at hl
      exact h.pending j c hj hl
  · intro l hl
    show l.call < (s.calls ++ [e]).length
    rw [hlen]
    exact Nat.lt_succ_of_lt (h.known l hl)

omit [DecidableEq V] in
/-- Every step but a resent put keeps calls to one landing. -/
theorem Open.did (h : Open s) (hd : Did content l s s')
    (hl : ∀ i tok, l ≠ .resent i tok) : Open s' := by
  have hanswer : ∀ {s : Fleet V} {i call : Nat} {r : Except PlacementError ShardMap}, Open s →
      Open (s.answer i call r) := fun {s _ _ _} h =>
    Open.goto (s := { s with returned := _ }) ⟨h.bound, h.apart, h.pending, h.known, h.once⟩
      nofun
  cases hd with
  | begun i e idle eq =>
    rw [eq]
    exact h.begun
  | tried i call pc before pending after still put eq =>
    rw [eq]
    exact h.goto fun c hc => ⟨by rw [before, ← after, hc], still, pending⟩
  | landed i call seen now read map expected tok s₁ pc expects stands mid eq =>
    have hcall : (s.pcs i).call = some call := by rw [pc]; rfl
    have hopen : (s.pcs i).hasLanded = false := by rw [pc]; rfl
    rcases eq with rfl | rfl | ⟨⟨i', tok', hsent⟩, -⟩
    · refine h.land (l := ⟨call, seen, now, read, view s.cell, map⟩) hcall hopen ?_ ?_ ?_
        (.inl rfl)
      all_goals
        rw [mid]
        rfl
    · refine h.land (l := ⟨call, seen, now, read, view s.cell, map⟩) hcall hopen ?_ ?_ ?_
        (.inr rfl)
      all_goals
        rw [mid]
        rfl
    · exact absurd hsent (hl i' tok')
  | failed i call e before eq =>
    rw [eq]
    exact hanswer h
  | answered i call map history pc eq =>
    rw [eq]
    exact hanswer (s := { s with history := history })
      ⟨h.bound, h.apart, h.pending, h.known, h.once⟩
  | cached clients servers eq fresh fresh' =>
    rw [eq]
    exact ⟨h.bound, h.apart, h.pending, h.known, h.once⟩

/-! ## Copies never go back -/

/-- No copy is newer than the object. -/
structure Behind (s : Fleet V) : Prop where
  clients : ∀ j m, s.clients j = some m → m.version ≤ (view s.cell).version
  servers : ∀ k m, s.copies k = some m → m.version ≤ (view s.cell).version

/-- What `new` holds is at least as new as what `old` held. -/
def NotBack (old new : Nat → Option ShardMap) : Prop :=
  ∀ j m, old j = some m → ∃ m', new j = some m' ∧ m.version ≤ m'.version

theorem notBack_refl (f : Nat → Option ShardMap) : NotBack f f :=
  fun _ m hm => ⟨m, hm, le_rfl⟩

theorem NotBack.trans {f g h : Nat → Option ShardMap} (hfg : NotBack f g) (hgh : NotBack g h) :
    NotBack f h := by
  intro j m hm
  obtain ⟨m', hm', hle⟩ := hfg j m hm
  obtain ⟨m'', hm'', hle'⟩ := hgh j m' hm'
  exact ⟨m'', hm'', Nat.le_trans hle hle'⟩

theorem Reloaded.notBack {new : Nat → Option ShardMap} (h : Reloaded now old new)
    (hle : ∀ j m, old j = some m → m.version ≤ now.version) : NotBack old new := by
  intro j m hm
  rcases h j with heq | heq
  · exact ⟨m, heq.trans hm, le_rfl⟩
  · exact ⟨now, heq, hle j m hm⟩

theorem Reloaded.le {new : Nat → Option ShardMap}
    (h : Reloaded now old new) (hle : ∀ j m, old j = some m → m.version ≤ now.version) :
    ∀ j m, new j = some m → m.version ≤ now.version := by
  intro j m hm
  rcases h j with heq | heq
  · exact hle j m (heq.symm.trans hm)
  · cases heq.symm.trans hm
    exact le_rfl

omit [DecidableEq V] in
/-- The object's version goes up by one in a landing and stays in every
other step, and what has landed stays written down. -/
theorem Ledger.view_did (h : Ledger content m₀ s) (hd : Did content l s s') :
    (view s.cell).version ≤ (view s'.cell).version ∧ ∃ later, s'.landed = s.landed ++ later := by
  have hsame : ∀ {c : Option (ShardMap × V)} {ls : List Landing}, c = s.cell → ls = s.landed →
      (view s.cell).version ≤ (view c).version ∧ ∃ later, ls = s.landed ++ later := by
    rintro c ls rfl rfl
    exact ⟨le_rfl, [], (List.append_nil _).symm⟩
  cases hd with
  | begun i e idle eq =>
    rw [eq]
    exact hsame rfl rfl
  | tried i call pc before pending after still put eq =>
    rw [eq]
    exact hsame rfl rfl
  | landed i call seen now read map expected tok s₁ pc expects stands mid eq =>
    have hput := h.puts i
    rw [pc] at hput
    obtain ⟨hread, e, -, hmap⟩ := hput
    have hver : map.version = (view s.cell).version + 1 := by
      calc map.version
          _ = (e.published seen now read).version := congrArg ShardMap.version hmap
          _ = read.version + 1 := e.published_version seen now read
          _ = (view s.cell).version + 1 := by rw [hread, ← expects, view_content h.sound]
    have hmid : (view s.cell).version ≤ (view s₁.cell).version
        ∧ ∃ later, s₁.landed = s.landed ++ later := by
      rw [mid]
      exact ⟨Nat.le_of_lt (Nat.lt_of_lt_of_eq (Nat.lt_succ_self _) hver.symm), _, rfl⟩
    rcases eq with rfl | rfl | ⟨-, rfl⟩
    · exact hmid
    · exact hmid
    · exact hmid
  | failed i call e before eq =>
    rw [eq]
    exact hsame rfl rfl
  | answered i call map history pc eq =>
    rw [eq]
    exact hsame rfl rfl
  | cached clients servers eq fresh fresh' =>
    rw [eq]
    exact hsame rfl rfl

omit [DecidableEq V] in
/-- A step reloads copies and leaves the others alone. -/
theorem did_copies (hd : Did content l s s') :
    Reloaded (view s.cell) s.clients s'.clients ∧ Reloaded (view s.cell) s.copies s'.copies := by
  have hsame : ∀ {s₁ : Fleet V}, s₁.clients = s.clients → s₁.servers = s.servers →
      Reloaded (view s.cell) s.clients s₁.clients ∧ Reloaded (view s.cell) s.copies s₁.copies := by
    intro s₁ hc hs
    refine ⟨hc ▸ reloaded_refl _ _, fun k => .inl ?_⟩
    rw [copies, copies, hs]
  cases hd with
  | begun i e idle eq =>
    rw [eq]
    exact hsame rfl rfl
  | tried i call pc before pending after still put eq =>
    rw [eq]
    exact hsame rfl rfl
  | landed i call seen now read map expected tok s₁ pc expects stands mid eq =>
    rw [mid] at eq
    rcases eq with rfl | rfl | ⟨-, rfl⟩
    · exact hsame rfl rfl
    · exact hsame rfl rfl
    · exact hsame rfl rfl
  | failed i call e before eq =>
    rw [eq]
    exact hsame rfl rfl
  | answered i call map history pc eq =>
    rw [eq]
    exact hsame rfl rfl
  | cached clients servers eq fresh fresh' =>
    rw [eq] at fresh' ⊢
    exact ⟨fresh, fresh'⟩

/-! ## Whole runs -/

structure Inv (content : V → ShardMap) (m₀ : ShardMap) (s : Fleet V) : Prop where
  ledger : Ledger content m₀ s
  heard : Heard s
  behind : Behind s

omit [DecidableEq V] in
theorem Init.inv (h : Init content s) : Inv content (view s.cell) s where
  ledger :=
    { sound := h.sound
      puts := fun i => by rw [h.pcs i]; trivial
      chain := by rw [h.landed]; rfl
      made := fun l hl => by rw [h.landed] at hl; cases hl }
  heard :=
    { done := fun i => by rw [h.pcs i]; trivial
      answers := fun c m hm => by rw [h.returned] at hm; cases hm }
  behind :=
    { clients := fun j m hm => by rw [h.clients j] at hm; cases hm
      servers := fun k m hm => by rw [copies, h.servers k] at hm; cases hm }

omit [DecidableEq V] in
theorem Init.open (h : Init content s) : Open s where
  bound := fun i c hc => by rw [h.pcs i] at hc; cases hc
  apart := fun i j c hc => by rw [h.pcs i] at hc; cases hc
  pending := fun i c hc => by rw [h.pcs i] at hc; cases hc
  known := fun l hl => by rw [h.landed] at hl; cases hl
  once := by rw [h.landed]; exact List.nodup_nil

theorem inv_next (h : Inv content m₀ s) (hn : next content s l = some s') : Inv content m₀ s' := by
  have hd := next_did h.ledger.sound hn
  obtain ⟨hc, hs⟩ := did_copies hd
  have hup := (h.ledger.view_did hd).1
  refine ⟨h.ledger.did hd, h.heard.did hd, ?_, ?_⟩
  · exact fun j m hm => Nat.le_trans (hc.le h.behind.clients j m hm) hup
  · exact fun k m hm => Nat.le_trans (hs.le h.behind.servers k m hm) hup

variable {ls : List (FleetLabel V)}

/-- What is written down stays so and no copy goes back. -/
theorem run_forward (h : Inv content m₀ s) (hr : run (next content) s ls = some s') :
    (∃ later, s'.landed = s.landed ++ later)
      ∧ NotBack s.clients s'.clients ∧ NotBack s.copies s'.copies := by
  induction ls generalizing s with
  | nil =>
    cases hr
    exact ⟨⟨[], (List.append_nil _).symm⟩, notBack_refl _, notBack_refl _⟩
  | cons l ls ih =>
    obtain ⟨s₁, h1, h2⟩ := run_cons_some hr
    obtain ⟨⟨later, hl⟩, hc, hs⟩ := ih (inv_next h h1) h2
    have hd := next_did h.ledger.sound h1
    obtain ⟨-, first, hf⟩ := h.ledger.view_did hd
    obtain ⟨hc₁, hs₁⟩ := did_copies hd
    refine ⟨⟨first ++ later, by rw [hl, hf, List.append_assoc]⟩, ?_, ?_⟩
    · exact (hc₁.notBack h.behind.clients).trans hc
    · exact (hs₁.notBack h.behind.servers).trans hs

/-- Without a resent put, calls land once. -/
theorem run_open (h : Inv content m₀ s) (ho : Open s)
    (hls : ∀ i tok, .resent i tok ∉ ls) (hr : run (next content) s ls = some s') : Open s' := by
  induction ls generalizing s with
  | nil =>
    cases hr
    exact ho
  | cons l ls ih =>
    obtain ⟨s₁, h1, h2⟩ := run_cons_some hr
    have hd := next_did h.ledger.sound h1
    refine ih (inv_next h h1) (ho.did hd fun i tok heq => ?_) (fun i tok hin => ?_) h2
    · exact hls i tok (heq ▸ List.mem_cons_self)
    · exact hls i tok (List.mem_cons_of_mem l hin)

/-- Publication over any interleaving. The map is what the landings made
of it, one on top of the other, each the edit of its call over the map
that call read, one version further on, and a call that returned `Ok`
has landed with the map it returned. Where no landed put was sent again, a
call lands at most once. Whatever happens next, the landings stay and no
client's or server's copy goes back. -/
theorem publication {s₀ s : Fleet V} {ls : List (FleetLabel V)} (h0 : Init content s₀)
    (hr : run (next content) s₀ ls = some s) : Chained (view s₀.cell) s.landed (view s.cell)
      ∧ (∀ l ∈ s.landed, l.read = l.before ∧ l.map.version = l.before.version + 1
          ∧ ∃ e, s.calls[l.call]? = some e ∧ l.map = e.published l.seen l.now l.read)
      ∧ (view s.cell).version = (view s₀.cell).version + s.landed.length
      ∧ (∀ c m, (c, .ok m) ∈ s.returned → ∃ l ∈ s.landed, l.call = c ∧ l.map = m)
      ∧ ((∀ i tok, .resent i tok ∉ ls) → (s.landed.map Landing.call).Nodup)
      ∧ ∀ ls' s', run (next content) s ls' = some s' →
          (∃ later, s'.landed = s.landed ++ later)
            ∧ NotBack s.clients s'.clients ∧ NotBack s.copies s'.copies := by
  have hi : Inv content (view s₀.cell) s :=
    run_invariant (fun _ _ _ => inv_next) h0.inv hr
  have hmade : ∀ l ∈ s.landed, l.read = l.before ∧ l.map.version = l.before.version + 1
      ∧ ∃ e, s.calls[l.call]? = some e ∧ l.map = e.published l.seen l.now l.read := by
    intro l hl
    obtain ⟨hread, e, he, hmap⟩ := hi.ledger.made l hl
    refine ⟨hread, ?_, e, he, hmap⟩
    rw [hmap, MapEdit.published_version, hread]
  exact ⟨hi.ledger.chain, hmade, hi.ledger.chain.version fun l hl => (hmade l hl).2.1,
    hi.heard.answers, fun hls => (run_open h0.inv h0.open hls hr).once,
    fun ls' s' hr' => run_forward hi hr'⟩

/-- A store whose tokens are the contents themselves. -/
def unpublished : Fleet ShardMap where
  cell := none
  history _ := none
  pcs _ := .idle
  calls := []
  landed := []
  returned := []
  clients _ := none
  servers _ := none

theorem init_unpublished : Init id unpublished where
  sound m v h := by cases h
  pcs _ := rfl
  calls := rfl
  landed := rfl
  returned := rfl
  clients _ := rfl
  servers _ := rfl

def roster : MapEdit := .setNodes [⟨"a", "a.cell:6400"⟩, ⟨"b", "b.cell:6400"⟩]

def pinned : MapEdit := .pin ⟨"t", 0, "b"⟩

/-- Two publishers read the empty map. The roster lands, the pin conflicts
and lands on its second try, and a client that has version one hears of
version two. -/
def contended : List (FleetLabel ShardMap) :=
  let m₁ := roster.published [] 7 .empty
  let m₂ := pinned.published [.empty] 9 m₁
  [.publish 0 roster, .publish 1 pinned, .get 0 7 true, .get 1 8 true,
   .put 0 (.reply m₁), .put 1 (.reply m₁), .history 0 true, .client 5 true,
   .get 1 9 true, .put 1 (.reply m₂), .history 1 false, .absorb 5 2 true]

theorem publication_contended :
    ∃ s, run (next id) unpublished contended = some s
      ∧ s.landed.map (fun l => (l.call, l.map.version)) = [(0, 1), (1, 2)]
      ∧ s.returned.map Prod.fst = [0, 1]
      ∧ (s.landed.map Landing.call).Nodup
      ∧ (view s.cell).version = 0 + s.landed.length := by
  have hr : run (next id) unpublished contended = some _ := rfl
  have hp := publication init_unpublished hr
  exact ⟨_, hr, rfl, rfl, hp.2.2.2.2.1 (fun i tok h => by simp [contended] at h), hp.2.2.1⟩

/-- The roster lands and its put is answered 503. The one the client sends
after it conflicts, so `publish` reads the map it has just published and
lands its edit again. -/
def resentRoster : List (FleetLabel ShardMap) :=
  let m₁ := roster.published [] 7 .empty
  let m₂ := roster.published [.empty] 8 m₁
  [.publish 0 roster, .get 0 7 true, .resent 0 m₁, .get 0 8 true, .put 0 (.reply m₂),
   .history 0 true]

/-- One call that returned `Ok` once, and the two versions it made. -/
theorem publication_resent :
    ∃ s m, run (next id) unpublished resentRoster = some s ∧ s.returned = [(0, .ok m)]
      ∧ m.version = 2 ∧ s.landed.map (fun l => (l.call, l.map.version)) = [(0, 1), (0, 2)] :=
  ⟨_, _, rfl, rfl, rfl, rfl⟩

/-! ## Routes and admissions -/

/-- The map is a client's or a server's copy. -/
def Copied (s : Fleet V) (m : ShardMap) : Prop :=
  (∃ j, s.clients j = some m) ∨ ∃ k, s.copies k = some m

omit [DecidableEq V] in
theorem Copied.did (hd : Did content l s s') (h : Copied s' m) : Copied s m ∨ m = view s.cell := by
  obtain ⟨hc, hs⟩ := did_copies hd
  rcases h with ⟨j, hj⟩ | ⟨k, hk⟩
  · rcases hc j with heq | heq
    · exact .inl (.inl ⟨j, heq.symm.trans hj⟩)
    · exact .inr (Option.some.inj (hj.symm.trans heq))
  · rcases hs k with heq | heq
    · exact .inl (.inr ⟨k, heq.symm.trans hk⟩)
    · exact .inr (Option.some.inj (hk.symm.trans heq))

/-- Every copy is a map the object held. -/
theorem run_copied (h : Inv content m₀ s)
    (hs : ∀ m, Copied s m → m ∈ m₀ :: s.landed.map Landing.map)
    (hr : run (next content) s ls = some s') :
    ∀ m, Copied s' m → m ∈ m₀ :: s'.landed.map Landing.map := by
  have hstep : ∀ s (l : FleetLabel V) s',
      (Inv content m₀ s ∧ ∀ m, Copied s m → m ∈ m₀ :: s.landed.map Landing.map) →
      next content s l = some s' →
      Inv content m₀ s' ∧ ∀ m, Copied s' m → m ∈ m₀ :: s'.landed.map Landing.map := by
    intro s l s' hi hn
    have hd := next_did hi.1.ledger.sound hn
    obtain ⟨-, later, hl⟩ := hi.1.ledger.view_did hd
    refine ⟨inv_next hi.1 hn, fun m hm => ?_⟩
    rw [hl, List.map_append, ← List.cons_append]
    refine List.mem_append_left _ ?_
    rcases hm.did hd with hm | rfl
    · exact hi.2 m hm
    · exact hi.1.ledger.chain.mem
  exact (run_invariant hstep ⟨h, hs⟩ hr).2

/-- A version is one map, for everyone and for good. So a server that has
the version of the map a client routed by admits the request if it is the
node the client chose and refuses it if not, and no two nodes ever admit a
tenant's shard at one version. -/
theorem routes_admitted (score : String → String → Nat → Nat) (tenantRef : String) (shard : Nat)
    {s₀ s s' : Fleet V} {ls ls' : List (FleetLabel V)} (h0 : Init content s₀)
    (hr : run (next content) s₀ ls = some s) (hr' : run (next content) s ls' = some s') {k' : Nat}
    {sv' : MapServer} (hsv' : s'.servers k' = some sv') :
    (∀ j m n, s.clients j = some m → m.version = sv'.map.version →
        m.route score tenantRef shard = .ok n →
        (sv'.answers score tenantRef shard = .ok m.version ↔ n.id = sv'.node)
          ∧ (sv'.answers score tenantRef shard = .error (.wrongShard m.version)
            ↔ n.id ≠ sv'.node))
      ∧ ∀ k sv v, s.servers k = some sv → sv.answers score tenantRef shard = .ok v →
        sv'.answers score tenantRef shard = .ok v → sv.node = sv'.node := by
  have hi : Inv content (view s₀.cell) s := run_invariant (fun _ _ _ => inv_next) h0.inv hr
  have hi' : Inv content (view s₀.cell) s' := run_invariant (fun _ _ _ => inv_next) hi hr'
  have hheld := run_copied h0.inv (fun m hm => by
    rcases hm with ⟨j, hj⟩ | ⟨k, hk⟩
    · rw [h0.clients j] at hj
      cases hj
    · rw [copies, h0.servers k] at hk
      cases hk) hr
  have hheld' := run_copied hi hheld hr'
  have hup : ∀ l ∈ s'.landed, l.map.version = l.before.version + 1 := by
    intro l hl
    obtain ⟨hread, e, -, hmap⟩ := hi'.ledger.made l hl
    rw [hmap, MapEdit.published_version, hread]
  -- A copy of earlier is among the maps that are written down now.
  have hone : ∀ m, Copied s m → m.version = sv'.map.version → m = sv'.map := by
    intro m hm
    obtain ⟨⟨later, hl⟩, -⟩ := run_forward hi hr'
    have hm' : m ∈ view s₀.cell :: s'.landed.map Landing.map := by
      rw [hl, List.map_append, ← List.cons_append]
      exact List.mem_append_left _ (hheld m hm)
    exact hi'.ledger.chain.eq_of_version hup hm'
      (hheld' _ (.inr ⟨k', by rw [copies, hsv']; rfl⟩))
  refine ⟨fun j m n hj hv hn => ?_, fun k sv v hk hsv hv => ?_⟩
  · obtain rfl := hone m (.inl ⟨j, hj⟩) hv
    unfold ShardMap.route at hn
    unfold MapServer.answers
    cases hnode : sv'.map.nodeFor score tenantRef shard with
    | none =>
      rw [hnode] at hn
      cases hn
    | some n' =>
      rw [hnode] at hn
      obtain rfl := Except.ok.inj hn
      by_cases hid : n'.id = sv'.node <;> simp [hid]
  · obtain ⟨n, hn, hnode, rfl⟩ := MapServer.answers_ok hsv
    obtain ⟨n', hn', hnode', hver⟩ := MapServer.answers_ok hv
    have hmap := hone sv.map (.inr ⟨k, by rw [copies, hk]; rfl⟩) hver.symm
    rw [hmap, hn'] at hn
    rw [← hnode, ← hnode', Option.some.inj hn]

/-- The fleet when both calls have returned. -/
def settled : Fleet ShardMap := (run (next id) unpublished contended).getD unpublished

def pinnedMap : ShardMap := pinned.published [.empty] 9 (roster.published [] 7 .empty)

/-- Node "b" starts then, and the client that heard of the pin routes to
it. -/
theorem routes_admitted_pinned :
    ∃ s, run (next id) settled [.server 3 "b" true] = some s
      ∧ s.servers 3 = some ⟨"b", pinnedMap⟩
      ∧ MapServer.answers (fun _ _ _ => 0) ⟨"b", pinnedMap⟩ "t" 0 = .ok 2 := by
  have hr : run (next id) unpublished contended = some settled := rfl
  obtain ⟨s, hr', hsv⟩ : ∃ s, run (next id) settled [.server 3 "b" true] = some s
      ∧ s.servers 3 = some ⟨"b", pinnedMap⟩ := ⟨_, rfl, rfl⟩
  have h := (routes_admitted (fun _ _ _ => 0) "t" 0 init_unpublished hr hr' hsv).1 5 pinnedMap
    ⟨"b", "b.cell:6400"⟩ rfl rfl rfl
  exact ⟨s, hr', hsv, h.1.mpr rfl⟩

end Fleet

end Zou
