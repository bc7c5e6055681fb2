import Zou.DualMediaSafety
import Zou.SequencerSafety
import Zou.WalRuns

/-!
# Who wrote a segment

The lineages of a shard are told apart by the links of their segments. A
writer's windows are linked to each other by the digests of their tenants
(`Linked`), every object is a seal or a window of some writer (`Known`), and
what a reader holds stays the owner of its seq unless its writer has been
fenced below it (`Held`). So where the digests of two writers' windows at
one seq differ, a walk that is given a window of a writer was given nothing
but that writer's windows since its seal.

What every client relies on of the others is the order `View.Le`: writers
only add windows, seals stay, and a landing goes only as litter.

- **requests**: `exec_safe` and `land_safe` say that no request and no late
  put breaks the invariant or goes against the order, where what is put is
  `Known` and what is deleted is `Clean`.
- **clients**: `Sound` is a rule of assertions for the programs of the
  takeover, the writer and the reader. It is kept by sequence, choice and
  every single request, so each program has a lemma, named after it, from
  those of what it calls.
-/

namespace Zou.Wal

open Trace Client

/-! ## Owners -/

/-- The object that the rule of the mode makes the owner. -/
def Owns (mode : DurabilityMode) (slots : Medium → Option Segment) (x : Segment) : Prop :=
  match mode with
  | .standard => slots .standard = some x
  | .expressDual => ∃ m m', m ≠ m' ∧ slots m = some x ∧ slots m' = some x

variable {mode : DurabilityMode} {x : Segment}

/-- The rule that a fetch goes by, as the objects that make it up. -/
theorem owner_eq_some {g : Store} {seq : Nat} :
    g.owner mode seq = some x ↔ Owns mode (g.slots seq) x := by
  cases mode with
  | standard => exact .rfl
  | expressDual =>
    constructor
    · intro h
      change fetchOf _ _ _ = some x at h
      unfold fetchOf at h
      split at h
      · rename_i hab
        exact ⟨.az1, .az2, by decide, h, hab.2 ▸ h⟩
      · split at h
        · cases h
        · split at h
          · rename_i hs
            exact ⟨.az1, .standard, by decide, h, hs.2.trans h⟩
          · split at h
            · rename_i hs
              exact ⟨.az2, .standard, by decide, h, hs.2.trans h⟩
            · cases h
    · rintro ⟨m, m', hne, h, h'⟩
      exact DualMedia.fetchOf_two hne h h'

/-- A seq has one owner at most: two of three media share one. -/
theorem Owns.unique {slots : Medium → Option Segment} {y : Segment}
    (hx : Owns mode slots x) (hy : Owns mode slots y) : x = y := by
  cases mode with
  | standard => exact Option.some.inj (hx.symm.trans hy)
  | expressDual =>
    obtain ⟨a, b, hab, ha, hb⟩ := hx
    obtain ⟨c, d, hcd, hc, hd⟩ := hy
    rcases DualMedia.pairs_meet hab hcd with rfl | rfl | rfl | rfl
    · exact Option.some.inj (ha.symm.trans hc)
    · exact Option.some.inj (ha.symm.trans hd)
    · exact Option.some.inj (hb.symm.trans hc)
    · exact Option.some.inj (hb.symm.trans hd)

theorem Owns.mono {slots slots' : Medium → Option Segment} (h : Owns mode slots x)
    (hk : ∀ m, slots m = some x → slots' m = some x) : Owns mode slots' x := by
  cases mode with
  | standard => exact hk _ h
  | expressDual =>
    obtain ⟨m, m', hne, h, h'⟩ := h
    exact ⟨m, m', hne, hk m h, hk m' h'⟩

theorem sealed_iff {g : Store} {seq : Nat} :
    g.Sealed mode seq ↔ ∃ x, Owns mode (g.slots seq) x ∧ x.header.kind = .seal := by
  unfold Store.Sealed
  rw [Option.any_eq_true]
  constructor
  · rintro ⟨x, hx, hk⟩
    exact ⟨x, owner_eq_some.mp hx, of_decide_eq_true hk⟩
  · rintro ⟨x, hx, hk⟩
    exact ⟨x, owner_eq_some.mpr hx, decide_eq_true hk⟩

/-! ## The view the clients share -/

/-- The store, and who has built what. -/
structure View where
  store : Store
  lineages : List (Option Lineage)

def ShardRuns.view (s : ShardRuns) : View := ⟨s.store, s.lineages⟩

namespace View

variable (mode : DurabilityMode) (crc32c : List UInt8 → Nat)

def exec (g : View) (q : Request) (wire : Wire) : Option (View × q.Reply) :=
  (g.store.exec q wire).map fun x => ({ g with store := x.1 }, x.2)

/-- A delete finds nothing, or litter. -/
def Clean (g : View) : Request → Prop
  | .delete m seq => ∀ x ∈ g.store.slots seq m, Litter mode g.store g.lineages seq x
  | _ => True

instance (g : View) (q : Request) : Decidable (g.Clean mode q) := by
  cases q <;> unfold Clean <;> infer_instance

/-- Writer `i` of the view. -/
def Writer (g : View) (i : Nat) (l : Lineage) : Prop := g.lineages[i]? = some (some l)

variable {g : View} {seq : Nat} {x : Segment}

theorem litter_iff :
    Litter mode g.store g.lineages seq x ↔ x.header.kind = .landing ∧
      ∃ i l, g.Writer i l ∧ x ∈ l.windows ∧
        ∃ f, f < seq ∧ l.sealedSeq < f ∧ g.store.Sealed mode f := by
  unfold Litter
  refine and_congr_right fun _ => ⟨?_, ?_⟩
  · rintro ⟨o, ho, l, hl, hx⟩
    obtain ⟨i, hi⟩ := List.mem_iff_getElem?.mp ho
    obtain rfl : o = some l := hl
    exact ⟨i, l, hi, hx⟩
  · rintro ⟨i, l, hi, hx⟩
    exact ⟨some l, List.mem_of_getElem? hi, l, rfl, hx⟩

/-- The windows of a writer, from the one after its seal. -/
def Linked (q : Nat) (ws : List Segment) : Prop :=
  ∀ k x, ws[k]? = some x → x.header.kind = .landing ∧ x.header.seq = q + 1 + k ∧ x.tenants ≠ []
    ∧ ∀ j y, k = j + 1 → ws[j]? = some y → x.header.prevDigest = tenantsDigest crc32c y.tenants

/-- A seal, or a window of some writer. -/
def Known (g : View) (seq : Nat) (x : Segment) : Prop :=
  x.header.seq = seq ∧ ((x.header.kind = .seal ∧ x.tenants = []) ∨
    ∃ i l, g.Writer i l ∧ x ∈ l.windows)

structure Inv (g : View) : Prop where
  slots : ∀ seq m x, g.store.slots seq m = some x → g.Known seq x
  launched : ∀ l ∈ g.store.launched, g.Known l.seq l.segment
  linked : ∀ i l, g.Writer i l → Linked crc32c l.sealedSeq l.windows
  distinct : ∀ i j l l' x y, i ≠ j → g.Writer i l → g.Writer j l' → x ∈ l.windows →
    y ∈ l'.windows → x.header.seq = y.header.seq →
    tenantsDigest crc32c x.tenants ≠ tenantsDigest crc32c y.tenants

structure Le (g g' : View) : Prop where
  writers : ∀ i l, g.Writer i l → ∃ l', g'.Writer i l' ∧ l'.sealedSeq = l.sealedSeq
    ∧ l.windows <+: l'.windows
  slots : ∀ seq m x, g.store.slots seq m = some x →
    g'.store.slots seq m = some x ∨ Litter mode g'.store g'.lineages seq x

variable {mode crc32c} {g' : View}

theorem Le.sealed (h : Le mode g g') {f : Nat} (hf : g.store.Sealed mode f) :
    g'.store.Sealed mode f := by
  obtain ⟨x, hx, hk⟩ := sealed_iff.mp hf
  refine sealed_iff.mpr ⟨x, hx.mono fun m hm => ?_, hk⟩
  refine (h.slots f m x hm).resolve_right fun hl => ?_
  rw [hl.1] at hk
  cases hk

theorem Le.litter (h : Le mode g g')
    (hl : Litter mode g.store g.lineages seq x) : Litter mode g'.store g'.lineages seq x := by
  obtain ⟨hk, i, l, hi, hx, f, hf, hq, hs⟩ := (litter_iff mode).mp hl
  obtain ⟨l', hi', hq', hp⟩ := h.writers i l hi
  exact (litter_iff mode).mpr
    ⟨hk, i, l', hi', hp.subset hx, f, hf, hq'.symm ▸ hq, h.sealed hs⟩

theorem Le.refl (g : View) : Le mode g g :=
  ⟨fun _ l hi => ⟨l, hi, rfl, List.prefix_refl _⟩, fun _ _ _ hx => .inl hx⟩

theorem Le.trans {g₁ g₂ g₃ : View} (h₁ : Le mode g₁ g₂) (h₂ : Le mode g₂ g₃) : Le mode g₁ g₃ := by
  refine ⟨fun i l hi => ?_, fun seq m x hx => ?_⟩
  · obtain ⟨l', hi', hq, hp⟩ := h₁.writers i l hi
    obtain ⟨l'', hi'', hq', hp'⟩ := h₂.writers i l' hi'
    exact ⟨l'', hi'', hq'.trans hq, hp.trans hp'⟩
  · rcases h₁.slots seq m x hx with hx | hx
    · exact h₂.slots seq m x hx
    · exact .inr (h₂.litter hx)

theorem Known.mono (h : Le mode g g') (hx : g.Known seq x) : g'.Known seq x := by
  refine ⟨hx.1, hx.2.imp_right ?_⟩
  rintro ⟨i, l, hi, hx⟩
  obtain ⟨l', hi', -, hp⟩ := h.writers i l hi
  exact ⟨i, l', hi', hp.subset hx⟩

variable (mode crc32c) in
/-- The store as its clients share it. -/
def shared : Shared Request Request.Reply View Wire where
  exec := exec
  ok := Clean mode
  inv := Inv crc32c
  le := Le mode
  refl := Le.refl
  trans := Le.trans

/-! ## Requests -/

/-- What is put is known. -/
def Fit (g : View) : Request → Prop
  | .putIfAbsent _ seq x => g.Known seq x
  | .launch _ _ seq x => g.Known seq x
  | _ => True

theorem setSlot_slots (g : Store) (seq : Nat) (m : Medium) (x : Option Segment) (seq' : Nat)
    (m' : Medium) :
    (g.setSlot seq m x).slots seq' m' = if seq' = seq ∧ m' = m then x else g.slots seq' m' := by
  unfold Store.setSlot
  dsimp only
  by_cases hs : seq' = seq
  · subst hs
    rw [Function.update_self]
    by_cases hm : m' = m
    · subst hm
      rw [Function.update_self, if_pos ⟨rfl, rfl⟩]
    · rw [Function.update_of_ne hm, if_neg fun h => hm h.2]
  · rw [Function.update_of_ne hs, if_neg fun h => hs h.1]

theorem setSlot_row {g : Store} {seq' : Nat} (h : seq' ≠ seq) (m : Medium)
    (x : Option Segment) : (g.setSlot seq m x).slots seq' = g.slots seq' := by
  funext m'
  rw [setSlot_slots, if_neg fun hs => h hs.1]

theorem putIfAbsent_cases (g : Store) (m : Medium) (seq : Nat) (x : Segment) (wire : Wire) :
    (g.putIfAbsent m seq x wire).1 = g ∨
      (g.slots seq m = none ∧ (g.putIfAbsent m seq x wire).1 = g.setSlot seq m (some x)) := by
  unfold Store.putIfAbsent
  cases wire with
  | dropped => exact .inl rfl
  | answered => cases h : g.slots seq m <;> simp
  | lost => cases h : g.slots seq m <;> simp

variable {st : Store}

theorem Inv.setStore (h : Inv crc32c g)
    (hslots : ∀ seq m x, st.slots seq m = some x → g.Known seq x)
    (hlaunched : ∀ l ∈ st.launched, g.Known l.seq l.segment) : Inv crc32c { g with store := st } :=
  ⟨hslots, hlaunched, h.linked, h.distinct⟩

theorem le_setStore (h : ∀ seq m x, g.store.slots seq m = some x → st.slots seq m = some x) :
    Le mode g { g with store := st } :=
  ⟨fun _ l hi => ⟨l, hi, rfl, List.prefix_refl _⟩, fun seq m x hx => .inl (h seq m x hx)⟩

/-- A put of something known. -/
theorem put_safe (hinv : Inv crc32c g) {m : Medium} (hx : g.Known seq x) (wire : Wire) :
    (∀ seq' m' y, (g.store.putIfAbsent m seq x wire).1.slots seq' m' = some y → g.Known seq' y)
      ∧ ∀ seq' m' y, g.store.slots seq' m' = some y →
        (g.store.putIfAbsent m seq x wire).1.slots seq' m' = some y := by
  rcases putIfAbsent_cases g.store m seq x wire with heq | ⟨hnone, heq⟩
  · rw [heq]
    exact ⟨hinv.slots, fun _ _ _ hy => hy⟩
  · rw [heq]
    refine ⟨fun seq' m' y hy => ?_, fun seq' m' y hy => ?_⟩
    · rw [setSlot_slots] at hy
      split at hy
      · rename_i hs
        obtain ⟨rfl, rfl⟩ := hs
        cases hy
        exact hx
      · exact hinv.slots seq' m' y hy
    · rw [setSlot_slots, if_neg]
      · exact hy
      · rintro ⟨rfl, rfl⟩
        rw [hnone] at hy
        cases hy

theorem putIfAbsent_launched (g : Store) (m : Medium) (seq : Nat) (x : Segment) (wire : Wire) :
    (g.putIfAbsent m seq x wire).1.launched = g.launched := by
  rcases putIfAbsent_cases g m seq x wire with heq | ⟨-, heq⟩ <;> rw [heq]
  rfl

/-- A delete of litter, which leaves every seal where it is. -/
theorem delete_safe (hinv : Inv crc32c g) {m : Medium} (hok : g.Clean mode (.delete m seq)) :
    Inv crc32c { g with store := g.store.setSlot seq m none }
      ∧ Le mode g { g with store := g.store.setSlot seq m none } := by
  refine ⟨hinv.setStore (fun seq' m' y hy => ?_) hinv.launched,
    ⟨fun _ l hi => ⟨l, hi, rfl, List.prefix_refl _⟩, fun seq' m' y hy => ?_⟩⟩
  · rw [setSlot_slots] at hy
    split at hy
    · cases hy
    · exact hinv.slots seq' m' y hy
  · by_cases hs : seq' = seq ∧ m' = m
    · obtain ⟨rfl, rfl⟩ := hs
      -- the seal that makes it litter is at a lower seq
      obtain ⟨hk, i, l, hi, hy, f, hf, hq, hsealed⟩ := (litter_iff mode).mp (hok y hy)
      refine .inr ((litter_iff mode).mpr ⟨hk, i, l, hi, hy, f, hf, hq, ?_⟩)
      rw [sealed_iff] at hsealed ⊢
      rw [setSlot_row (Nat.ne_of_lt hf)]
      exact hsealed
    · exact .inl ((setSlot_slots ..).trans (by rw [if_neg hs, hy]))

/-- A request, whatever becomes of it, keeps the invariant and the order. -/
theorem exec_safe {q : Request} {wire : Wire} {r : q.Reply} (hinv : Inv crc32c g)
    (hok : g.Clean mode q) (hfit : g.Fit q) (h : g.exec q wire = some (g', r)) :
    Inv crc32c g' ∧ Le mode g g' := by
  obtain ⟨⟨st, r'⟩, hx, heq⟩ := Option.map_eq_some_iff.mp h
  obtain ⟨rfl, -⟩ := Prod.mk.inj heq
  have hsame : Inv crc32c { g with store := g.store } ∧ Le mode g { g with store := g.store } :=
    ⟨hinv, Le.refl g⟩
  -- the requests that leave the objects and the launched puts alone
  have hquiet : ∀ st' : Store, st'.slots = g.store.slots → st'.launched = g.store.launched →
      Inv crc32c { g with store := st' } ∧ Le mode g { g with store := st' } := by
    intro st' hs hl
    refine ⟨hinv.setStore (fun seq m x hx => ?_) (fun l hl' => ?_), le_setStore fun seq m x hx => ?_⟩
    · exact hinv.slots seq m x (hs ▸ hx)
    · exact hinv.launched l (hl ▸ hl')
    · exact hs ▸ hx
  cases q with
  | get m seq =>
    cases wire <;> cases hx <;> exact hsame
  | putIfAbsent m seq x =>
    obtain ⟨hknown, hkeep⟩ := put_safe hinv hfit wire (m := m)
    have hst : (g.store.putIfAbsent m seq x wire).1 = st :=
      congrArg Prod.fst (Option.some.inj hx)
    rw [hst] at hknown hkeep
    refine ⟨hinv.setStore hknown fun l hl => hinv.launched l ?_, le_setStore hkeep⟩
    rw [← hst, putIfAbsent_launched] at hl
    exact hl
  | delete m seq =>
    cases wire with
    | answered =>
      cases hx
      exact delete_safe hinv hok
    | lost =>
      cases hx
      exact delete_safe hinv hok
    | dropped =>
      cases hx
      exact hsame
  | load => cases wire <;> cases hx <;> exact hsame
  | putIfMatch next version =>
    have hst : (g.store.putIfMatch next version wire).1 = st :=
      congrArg Prod.fst (Option.some.inj hx)
    rw [← hst]
    unfold Store.putIfMatch
    cases wire with
    | dropped => exact hsame
    | answered =>
      dsimp only
      split
      · exact hquiet _ rfl rfl
      · exact hsame
    | lost =>
      dsimp only
      split
      · exact hquiet _ rfl rfl
      · exact hsame
  | channel =>
    cases hx
    exact hquiet _ rfl rfl
  | launch c m seq x =>
    cases hx
    refine ⟨hinv.setStore hinv.slots fun l hl => ?_, le_setStore fun _ _ _ hx => hx⟩
    rcases List.mem_append.mp hl with hl | hl
    · exact hinv.launched l hl
    · rw [List.mem_singleton.mp hl]
      exact hfit
  | receive c timed =>
    unfold Store.exec at hx
    cases wire with
    | answered =>
      dsimp only at hx
      split at hx
      · cases hx
        exact hquiet _ rfl rfl
      · cases hx
    | lost =>
      dsimp only at hx
      split at hx
      · cases hx
        exact hsame
      · cases hx
    | dropped =>
      dsimp only at hx
      split at hx
      · cases hx
        exact hsame
      · cases hx

/-- So does a put whose caller has gone. -/
theorem land_safe {n : Nat} {wire : Wire} (hinv : Inv crc32c g)
    (h : g.store.land n wire = some st) :
    Inv crc32c { g with store := st } ∧ Le mode g { g with store := st } := by
  unfold Store.land at h
  split at h
  · cases h
  · rename_i l hl
    cases h
    obtain ⟨hknown, hkeep⟩ := put_safe hinv (hinv.launched l (List.mem_of_getElem? hl)) wire
      (m := l.medium)
    refine ⟨hinv.setStore hknown fun l' hl' => hinv.launched l' ?_, le_setStore hkeep⟩
    exact List.mem_of_mem_eraseIdx hl'

end View

/-! ## Clients -/

section Clients

variable {mode : DurabilityMode} {crc32c : List UInt8 → Nat} {E E' α β : Type}
  {K : View → Prop}

/-- The client keeps the view's invariant and moves it up, as long as `K`
holds, and returns only with `post`. -/
def Sound (mode : DurabilityMode) (crc32c : List UInt8 → Nat) (K : View → Prop)
    (p : Prog Request Request.Reply E α) (post : α → Prop) : Prop :=
  ∀ g, K g → p.Safe (View.shared mode crc32c) (fun a g => K g ∧ post a) g

/-- What is known stays known. -/
def Stable (mode : DurabilityMode) (K : View → Prop) : Prop :=
  ∀ g g', View.Le mode g g' → K g → K g'

variable {p : Prog Request Request.Reply E α} {f : α → Prog Request Request.Reply E β}
  {post : α → Prop} {post' : β → Prop}

theorem Sound.done (hK : Stable mode K) {a : α} (h : post a) :
    Sound mode crc32c K (.done a : Prog Request Request.Reply E α) post :=
  fun _ hk _ _ hle => ⟨hK _ _ hle hk, h⟩

theorem Sound.fail {e : E} :
    Sound mode crc32c K (.fail e : Prog Request Request.Reply E α) post := fun _ _ => trivial

/-- What the first program leaves is what the second may ask. -/
theorem Sound.bind (hp : Sound mode crc32c K p post)
    (hf : ∀ a, post a → Sound mode crc32c K (f a) post') : Sound mode crc32c K (p >>= f) post' :=
  fun g hk => (hp g hk).bind fun a g' _ ha => hf a ha.2 g' ha.1

variable {p : Prog Request Request.Reply E α}

theorem Sound.ite {c : Prop} [Decidable c] {p' : Prog Request Request.Reply E α}
    (hp : c → Sound mode crc32c K p post) (hp' : ¬ c → Sound mode crc32c K p' post) :
    Sound mode crc32c K (if c then p else p') post := by
  split
  · rename_i h
    exact hp h
  · rename_i h
    exact hp' h

/-- A request may be sent where what it puts is known. -/
theorem Sound.request (hK : Stable mode K) (q : Request) (hq : ∀ g, K g → g.Fit q) :
    Sound mode crc32c K (Prog.request q : Prog Request Request.Reply E q.Reply) fun _ => True := by
  refine fun g hk => Prog.Safe.request fun g₁ w g₂ r hinv hle hok hx => ?_
  obtain ⟨hinv', hle'⟩ := View.exec_safe hinv hok (hq g₁ (hK _ _ hle hk)) hx
  exact ⟨hinv', hle', fun g₃ _ hle₃ => ⟨hK _ _ (hle.trans (hle'.trans hle₃)) hk, trivial⟩⟩

theorem Sound.lift {p : Media α} (h : Sound mode crc32c K p post) :
    Sound mode crc32c K (liftM p : Chain α) post := fun g hk => (h g hk).mapErr

theorem Stable.frame {post : α → View → Prop} {g : View}
    (hK : Stable mode K) (h : p.Safe (View.shared mode crc32c) post g) (hk : K g) :
    p.Safe (View.shared mode crc32c) (fun a g => K g ∧ post a g) g :=
  Prog.Safe.frame (S := View.shared mode crc32c) hK h hk

theorem Sound.attempt (hK : Stable mode K) (h : Sound mode crc32c K p post) :
    Sound mode crc32c K (p.attempt : Prog Request Request.Reply E' (Except E α)) fun _ => True :=
  fun g hk => (hK.frame (h g hk).attempt hk).imp fun _ _ ha => ⟨ha.1, trivial⟩

theorem sound_ofReply (hK : Stable mode K) (r : Except CasError α) :
    Sound mode crc32c K (ofReply r) fun _ => True := by
  cases r with
  | ok a => exact Sound.done hK trivial
  | error e => exact Sound.fail

theorem sound_get (hK : Stable mode K) (m : Medium) (seq : Nat) :
    Sound mode crc32c K (get m seq) fun _ => True :=
  (Sound.request hK (.get m seq) fun _ _ => trivial).bind fun r _ => sound_ofReply hK r

theorem sound_delete (hK : Stable mode K) (m : Medium) (seq : Nat) :
    Sound mode crc32c K (delete m seq) fun _ => True :=
  (Sound.request hK (.delete m seq) fun _ _ => trivial).bind fun r _ => sound_ofReply hK r

theorem sound_loadManifest (hK : Stable mode K) : Sound mode crc32c K loadManifest fun _ => True :=
  (Sound.request hK .load fun _ _ => trivial).bind fun r _ => sound_ofReply hK r

theorem sound_present (hK : Stable mode K) (seq : Nat) :
    Sound mode crc32c K (present mode seq) fun _ => True := by
  unfold present
  cases mode with
  | standard => exact (sound_get hK _ _).bind fun _ _ => Sound.done hK trivial
  | expressDual =>
    refine (sound_get hK _ _).bind fun a _ => (sound_get hK _ _).bind fun b _ => ?_
    refine Sound.ite (fun _ => Sound.done hK trivial) fun _ => ?_
    refine Sound.ite (fun _ => Sound.done hK trivial) fun _ => ?_
    exact (sound_get hK _ _).bind fun _ _ => Sound.done hK trivial

theorem sound_deleteSegment (hK : Stable mode K) (seq : Nat) :
    Sound mode crc32c K (deleteSegment mode seq) fun _ => True := by
  unfold deleteSegment
  cases mode with
  | standard => exact sound_delete hK _ _
  | expressDual =>
    exact (sound_delete hK _ _).bind fun _ _ => (sound_delete hK _ _).bind fun _ _ =>
      sound_delete hK _ _

theorem sound_fetch (hK : Stable mode K) (seq : Nat) :
    Sound mode crc32c K (fetch mode seq) fun _ => True := by
  unfold fetch
  cases mode with
  | standard => exact sound_get hK _ _
  | expressDual =>
    refine (sound_get hK _ _).bind fun a _ => (sound_get hK _ _).bind fun b _ => ?_
    refine Sound.ite (fun _ => Sound.done hK trivial) fun _ => ?_
    refine Sound.ite (fun _ => Sound.done hK trivial) fun _ => ?_
    refine (sound_get hK _ _).bind fun s _ => ?_
    refine Sound.ite (fun _ => Sound.done hK trivial) fun _ => ?_
    exact Sound.ite (fun _ => Sound.done hK trivial) fun _ => Sound.done hK trivial

variable {x : Segment} {seq : Nat}

theorem sound_sealOne (hK : Stable mode K) {m : Medium}
    (hx : ∀ g, K g → g.Known seq x) : Sound mode crc32c K (sealOne m seq x) fun _ => True := by
  refine (Sound.request hK (.putIfAbsent m seq x) hx).bind fun r _ => ?_
  split
  · exact Sound.done hK trivial
  · exact Sound.done hK trivial
  · exact Sound.fail

theorem sound_sealSegment (hK : Stable mode K) (hx : ∀ g, K g → g.Known seq x) :
    Sound mode crc32c K (sealSegment mode seq x) fun _ => True := by
  unfold sealSegment
  cases mode with
  | standard =>
    refine (sound_sealOne hK hx).bind fun a _ => ?_
    exact Sound.ite (fun _ => Sound.done hK trivial) fun _ => Sound.done hK trivial
  | expressDual =>
    refine (sound_sealOne hK hx).bind fun a _ => (sound_sealOne hK hx).bind fun b _ => ?_
    refine Sound.ite (fun _ => Sound.done hK trivial) fun _ => ?_
    refine Sound.ite (fun _ => Sound.done hK trivial) fun _ => ?_
    refine (sound_sealOne hK hx).bind fun c _ => ?_
    exact Sound.ite (fun _ => Sound.done hK trivial) fun _ => Sound.done hK trivial

/-! ### Takeovers -/

theorem sound_gallop (hK : Stable mode K) (fuel lo step : Nat) :
    Sound mode crc32c K (gallop mode fuel lo step) fun _ => True := by
  induction fuel generalizing lo step with
  | zero => exact Sound.fail
  | succ fuel ih =>
    refine (sound_present hK _).lift.bind fun a _ => ?_
    exact Sound.ite (fun _ => ih _ _) fun _ => Sound.done hK trivial

theorem sound_bisect (hK : Stable mode K) (n lo hi : Nat) :
    Sound mode crc32c K (bisect mode n lo hi) fun _ => True := by
  induction n generalizing lo hi with
  | zero => exact Sound.done hK trivial
  | succ n ih =>
    refine Sound.ite (fun _ => ?_) fun _ => Sound.done hK trivial
    refine (sound_present hK _).lift.bind fun a _ => ?_
    exact Sound.ite (fun _ => ih _ _) fun _ => ih _ _

theorem sound_probeWindow (hK : Stable mode K) (len first : Nat) :
    Sound mode crc32c K (probeWindow mode len first) fun _ => True := by
  induction len generalizing first with
  | zero => exact Sound.done hK trivial
  | succ len ih =>
    refine (sound_present hK _).lift.bind fun a _ => ?_
    exact (ih _).bind fun _ _ => Sound.done hK trivial

theorem sound_chainHead (hK : Stable mode K) (fuel floor : Nat) :
    Sound mode crc32c K (chainHead mode fuel floor) fun _ => True := by
  refine (sound_present hK _).lift.bind fun a _ => ?_
  refine Sound.ite (fun _ => Sound.done hK trivial) fun _ => ?_
  refine (sound_gallop hK _ _ _).bind fun ⟨lo, hi⟩ _ => ?_
  refine (sound_bisect hK _ _ _).bind fun lo _ => ?_
  refine (sound_probeWindow hK _ _).bind fun window _ => ?_
  split <;> exact Sound.done hK trivial

theorem sound_digestOfSegment (hK : Stable mode K) (seq : Nat) :
    Sound mode crc32c K (digestOfSegment mode crc32c seq) fun _ => True := by
  refine Sound.ite (fun _ => Sound.done hK trivial) fun _ => ?_
  refine (sound_fetch hK _).lift.bind fun x _ => ?_
  split
  · exact Sound.fail
  · exact Sound.done hK trivial

theorem sound_headDigest (hK : Stable mode K) (manifest : Option ShardManifest) (head : Nat) :
    Sound mode crc32c K (headDigest mode crc32c manifest head) fun _ => True := by
  unfold headDigest
  cases manifest with
  | none => exact sound_digestOfSegment hK _
  | some m => exact Sound.ite (fun _ => Sound.done hK trivial) fun _ => sound_digestOfSegment hK _

theorem sound_sweepWindow (hK : Stable mode K) (ps : List Bool) (seq gap : Nat) :
    Sound mode crc32c K (sweepWindow mode ps seq gap) fun _ => True := by
  induction ps generalizing seq gap with
  | nil => exact Sound.done hK trivial
  | cons present ps ih =>
    cases present with
    | false => exact Sound.ite (fun _ => Sound.done hK trivial) fun _ => ih _ _
    | true =>
      refine (sound_fetch hK _).lift.bind fun x _ => ?_
      split
      · exact ih _ _
      · refine Sound.ite (fun _ => Sound.done hK trivial) fun _ => ?_
        exact (sound_deleteSegment hK _).lift.bind fun _ _ => ih _ _

theorem sound_sweepLoop (hK : Stable mode K) (fuel seq gap : Nat) :
    Sound mode crc32c K (sweepLoop mode fuel seq gap) fun _ => True := by
  induction fuel generalizing seq gap with
  | zero => exact Sound.fail
  | succ fuel ih =>
    refine Sound.ite (fun _ => ?_) fun _ => Sound.done hK trivial
    refine (sound_probeWindow hK _ _).bind fun window _ => ?_
    refine (sound_sweepWindow hK _ _ _).bind fun r _ => ?_
    split
    · exact Sound.done hK trivial
    · exact ih _ _

theorem known_sealAt (g : View) (shard seq prevDigest : Nat) :
    g.Known seq (sealAt shard seq prevDigest) := ⟨rfl, .inl ⟨rfl, rfl⟩⟩

theorem stable_true : Stable mode fun _ => True := fun _ _ _ _ => trivial

/-- A takeover puts nothing but seals, and hands out the seq after its
own. -/
theorem sound_takeOver (shard fuel : Nat) :
    Sound mode crc32c (fun _ => True) (takeOver mode shard crc32c fuel)
      fun t => t.nextSeq = t.sealedSeq + 1 := by
  have hloop : ∀ n, Sound mode crc32c (fun _ => True) (takeOverLoop mode shard crc32c fuel n)
      fun t => t.nextSeq = t.sealedSeq + 1 := by
    intro n
    induction n with
    | zero => exact Sound.fail
    | succ n ih =>
      refine (sound_loadManifest stable_true).lift.bind fun loaded _ => ?_
      refine (sound_chainHead stable_true _ _).bind fun head _ => ?_
      refine (sound_headDigest stable_true _ _).bind fun prev _ => ?_
      refine (sound_sealSegment stable_true fun g _ => known_sealAt g shard (head + 1) prev).lift.bind
        fun outcome _ => ?_
      cases outcome with
      | occupied => exact ih
      | sealed =>
        unfold claimShard
        refine (Sound.request stable_true (.putIfMatch _ _) fun _ _ => trivial).lift.bind
          fun r _ => ?_
        split
        · refine (sound_sweepLoop stable_true _ _ _).bind fun _ _ => ?_
          exact Sound.done stable_true rfl
        · exact ih
        · exact Sound.fail
  exact hloop maxAttempts

/-! ### Puts -/

/-- The puts of a quorum, in whatever order their answers come. -/
theorem sound_quorumLoop (hK : Stable mode K) (hx : ∀ g, K g → g.Known seq x)
    (c fuel outstanding successes : Nat) (hedged : Bool) (firstErr : Option CasError) :
    Sound mode crc32c K (quorumLoop seq x c fuel outstanding successes hedged firstErr)
      fun _ => True := by
  induction fuel generalizing outstanding successes hedged firstErr with
  | zero => exact Sound.fail
  | succ fuel ih =>
    have hlaunch : Sound mode crc32c K (launch c .standard seq x) fun _ => True :=
      Sound.request hK (.launch c .standard seq x) hx
    refine Sound.ite (fun _ => Sound.fail) fun _ => ?_
    refine (Sound.request hK (.receive c _) fun _ _ => trivial).bind fun r _ => ?_
    split
    · exact hlaunch.bind fun _ _ => ih _ _ _ _
    · exact Sound.ite (fun _ => Sound.done hK trivial) fun _ => ih _ _ _ _
    · exact Sound.fail
    · refine Sound.ite (fun _ => ih _ _ _ _) fun _ => ?_
      exact hlaunch.bind fun _ _ => ih _ _ _ _

/-- The put of a segment that is known, in either mode. -/
theorem sound_putSegment (hK : Stable mode K) (hx : ∀ g, K g → g.Known seq x) :
    Sound mode crc32c K (putSegment mode seq x) fun _ => True := by
  unfold putSegment
  cases mode with
  | standard =>
    exact (Sound.request hK (.putIfAbsent .standard seq x) hx).bind fun r _ => sound_ofReply hK r
  | expressDual =>
    refine (Sound.request hK .channel fun _ _ => trivial).bind fun c _ => ?_
    refine (Sound.request hK (.launch c .az1 seq x) hx).bind fun _ _ => ?_
    refine (Sound.request hK (.launch c .az2 seq x) hx).bind fun _ _ => ?_
    exact sound_quorumLoop hK hx _ _ _ _ _ _

theorem sound_stragglerAt (hK : Stable mode K) (seq sealedSeq : Nat) :
    Sound mode crc32c K (stragglerAt mode seq sealedSeq) fun _ => True := by
  refine Sound.ite (fun _ => Sound.done hK trivial) fun _ => ?_
  refine (sound_fetch hK _).lift.bind fun x _ => ?_
  split
  · exact Sound.done hK trivial
  · refine Sound.ite (fun _ => Sound.done hK trivial) fun _ => ?_
    exact (sound_loadManifest hK).lift.bind fun _ _ => Sound.done hK trivial

theorem sound_sinkPut (hK : Stable mode K) (hx : ∀ g, K g → g.Known seq x) (sealedSeq : Nat) :
    Sound mode crc32c K (sinkPut mode sealedSeq seq x) fun _ => True := by
  refine ((sound_putSegment hK hx).attempt hK).bind fun r _ => ?_
  split
  · refine ((sound_stragglerAt hK _ _).attempt hK).bind fun r _ => ?_
    split
    · exact (sound_deleteSegment hK _).bind fun _ _ => sound_putSegment hK hx
    · exact Sound.fail
  · exact Sound.fail
  · exact Sound.done hK trivial

end Clients

end Zou.Wal
