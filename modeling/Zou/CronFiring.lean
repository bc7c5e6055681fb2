import Zou.CronDue

/-!
# What a job is fired for

Over the rounds of a job the occurrences it is claimed for go up, and a
round that comes to the job claims the last occurrence that has gone by
since the one recorded, as far as the search for it reaches. A round that
has made its eight claims ahead of the job leaves it for the next one.
-/

namespace Zou

namespace Cron

/-- The seconds a schedule names, by the schedule's own rule for the day. -/
def Schedule.Occurs (s : Schedule) (c : Calendar) (t : Int) : Prop :=
  match s with
  | .reboot => False
  | .every seconds => t % (max seconds 1 : Nat) = 0
  | .fields f => ∃ m, t = m * 60 ∧ f.Takes c m

/-- Where something has gone by since `last`, the first of it is within the
minutes that are looked at, and so is the last where it is another. -/
def Schedule.Reached (s : Schedule) (c : Calendar) (last now : Int) : Prop :=
  ∀ t t', Search.IsFirst (s.Occurs c) (last + 1) t → Search.IsLast (s.Occurs c) now t' →
    t ≤ now → t / 60 ≤ last / 60 + window ∧ (now / 60 < t' / 60 + window ∨ t' = t)

/-- What is claimed with `last` recorded: the last occurrence that has gone
by, and nothing only where none has. -/
structure Rightly (q : Int → Prop) (last now : Int) (claimed : Option Int) : Prop where
  occurs : ∀ o, claimed = some o → q o ∧ last < o ∧ o ≤ now ∧ ∀ k, q k → o < k → now < k
  idle : claimed = none ↔ ∀ k, q k → last < k → now < k

def Turn.Right (t : Turn) (c : Calendar) (s : Schedule) (job : Job) : Prop :=
  Rightly (s.Occurs c) t.last t.now (t.claim job)

variable {s : Schedule}

/-- The searches reach whatever has gone by in less than the window. -/
theorem Schedule.reached_near {c : Calendar} {last now : Int}
    (h : now / 60 < last / 60 + window) : s.Reached c last now := by
  rintro t t' ⟨hlt, hocc, -⟩ ⟨-, -, hlast⟩ hle
  have hup : t ≤ t' := by
    by_contra hback
    exact hlast t hle (by omega) hocc
  exact ⟨by omega, .inl (by omega)⟩

/-! ## When -/

/-- An interval is less than a minute. -/
def Schedule.Short (s : Schedule) : Prop := ∀ n, s = .every n → n < 60

theorem parseFields_fields {text : Text} (h : parseFields text = .ok s) : ∃ f, s = .fields f := by
  rcases parseFields_spec text with ⟨hnone, -⟩ | ⟨l, -, ⟨hpanic, -⟩ | ⟨-, hrest⟩⟩
  · rw [parseFields_refused hnone] at h
    cases h
  · rw [hpanic] at h
    cases h
  · rcases hrest with ⟨-, a, ha, f, rfl, -⟩ | ⟨-, herr⟩
    · rw [ha] at h
      cases h
      exact ⟨f, rfl⟩
    · rw [herr] at h
      cases h

theorem parse_short {text : Text} (h : parse text = .ok s) : s.Short := by
  rintro n rfl
  have hfields : ∀ t, parseFields t ≠ .ok (.every n) := by
    intro t ht
    obtain ⟨f, hf⟩ := parseFields_fields ht
    cases hf
  unfold parse at h
  dsimp only at h
  split at h
  · cases h
  split at h
  · unfold shorthand at h
    split at h
    · cases h
    iterate 5
      split at h
      · exact absurd h (hfields _)
    cases h
  split at h
  · rename_i seconds hseconds
    cases h
    unfold interval at hseconds
    split at hseconds
    · cases hseconds
    · dsimp only at hseconds
      split at hseconds
      · have hbounds := (Option.filter_eq_some_iff.mp hseconds).2
        simp only [Bool.and_eq_true, decide_eq_true_eq] at hbounds
        omega
      · cases hseconds
  · exact absurd h (hfields _)

/-! A multiple next to a number. -/

theorem multiple_next {d u k : Int} (hd : 0 < d) (hk : k % d = 0) (hlt : u < k) :
    u - u % d + d ≤ k := by
  have hu := Int.mul_ediv_add_emod u d
  have hkd := Int.mul_ediv_add_emod k d
  have hmod := Int.emod_nonneg u (Int.ne_of_gt hd)
  have hquot : u / d < k / d := Int.lt_of_mul_lt_mul_left (a := d) (by omega) (Int.le_of_lt hd)
  have hle : d * (u / d + 1) ≤ d * (k / d) := Int.mul_le_mul_of_nonneg_left hquot (Int.le_of_lt hd)
  rw [Int.mul_add, Int.mul_one] at hle
  omega

theorem multiple_last {d u k : Int} (hd : 0 < d) (hk : k % d = 0) (hle : k ≤ u) :
    k ≤ u - u % d := by
  have hu := Int.mul_ediv_add_emod u d
  have hkd := Int.mul_ediv_add_emod k d
  have hquot : k / d ≤ u / d := Int.ediv_le_ediv hd hle
  have hmul : d * (k / d) ≤ d * (u / d) := Int.mul_le_mul_of_nonneg_left hquot (Int.le_of_lt hd)
  omega

theorem multiple_self {d u : Int} : (u - u % d) % d = 0 :=
  Int.emod_eq_zero_of_dvd Int.dvd_self_sub_emod

section Times

variable {s : Schedule} {c : Calendar} {u : Int}

theorem occurs_minute {f : Fields} {m : Int} :
    (Schedule.fields f).Occurs c (m * 60) ↔ f.matchesAt m = true := by
  rw [matchesAt_takes f c]
  constructor
  · rintro ⟨m', heq, h⟩
    obtain rfl : m = m' := by omega
    exact h
  · exact fun h => ⟨m, rfl, h⟩

theorem occurs_fields {f : Fields} {t : Int} (h : (Schedule.fields f).Occurs c t) :
    ∃ m, t = m * 60 ∧ f.matchesAt m = true := by
  obtain ⟨m, rfl, hm⟩ := h
  exact ⟨m, rfl, (matchesAt_takes f c m).mpr hm⟩

theorem i64_stamp {n : Int} (hlo : -2 ^ 60 ≤ n) (hhi : n < 2 ^ 60) : i64 n = .ok n :=
  i64_ok ⟨by omega, by omega⟩

/-- The next second a schedule names is found where it is within the minutes
that are looked at. -/
theorem next_spec (hne : s ≠ .reboot) (hshort : s.Short) (hu : IsStamp u) :
    ∃ r, s.nextAfter u = .ok r ∧ (∀ t, r = some t → Search.IsFirst (s.Occurs c) (u + 1) t)
      ∧ (r = none → ∀ k, s.Occurs c k → u < k → u / 60 + window < k / 60) := by
  obtain ⟨hlo, hhi⟩ := hu
  cases s with
  | reboot => exact absurd rfl hne
  | every n =>
    have hn := hshort n rfl
    have hpos : (0 : Int) < ((max n 1 : Nat) : Int) := by omega
    have hlt := Int.emod_lt_of_pos u hpos
    have hnonneg := Int.emod_nonneg u (Int.ne_of_gt hpos)
    refine ⟨some (u - u % (max n 1 : Nat) + (max n 1 : Nat)), ?_, fun t ht => ?_,
      nofun⟩
    · unfold Schedule.nextAfter
      dsimp only
      rw [i64_stamp (by omega) (by omega), Outcome.ok_bind, i64_stamp (by omega) (by omega)]
      rfl
    · cases ht
      refine ⟨by omega, ?_, fun k hk hkt hocc => ?_⟩
      · change (u - u % (max n 1 : Nat) + (max n 1 : Nat)) % (max n 1 : Nat) = 0
        rw [Int.add_emod_right]
        exact multiple_self
      · have hle := multiple_next hpos hocc (u := u) (by omega)
        omega
  | fields f =>
    have heq : (Schedule.fields f).nextAfter u = f.nextAfter u := rfl
    rw [heq, nextAfter_eq]
    refine ⟨_, secondOf_eq_ok.mpr ⟨rfl, fun m hm => ?_⟩, fun t ht => ?_, fun hnone k hk hlt => ?_⟩
    · obtain ⟨hbound, hle, -⟩ := Search.up_eq_some.mp hm
      unfold window at hbound
      constructor <;> omega
    · obtain ⟨m, hm, rfl⟩ := Option.map_eq_some_iff.mp ht
      obtain ⟨-, hle, hmatch, hbefore⟩ := Search.up_eq_some.mp hm
      refine ⟨by omega, occurs_minute.mpr hmatch, fun k hk hkm hocc => ?_⟩
      obtain ⟨j, rfl, hj⟩ := occurs_fields hocc
      exact hbefore j (by omega) (by omega) hj
    · obtain ⟨j, rfl, hj⟩ := occurs_fields hk
      have hup := Search.up_eq_none.mp (Option.map_eq_none_iff.mp hnone) j (by omega)
      refine Int.lt_of_not_ge fun hge => hup (by omega) hj

theorem last_spec (hne : s ≠ .reboot) (hshort : s.Short) (hu : IsStamp u) :
    ∃ r, s.lastAtOrBefore u = .ok r ∧ (∀ t, r = some t → Search.IsLast (s.Occurs c) u t)
      ∧ (r = none → ∀ k, s.Occurs c k → k ≤ u → k / 60 + window ≤ u / 60) := by
  obtain ⟨hlo, hhi⟩ := hu
  cases s with
  | reboot => exact absurd rfl hne
  | every n =>
    have hn := hshort n rfl
    have hpos : (0 : Int) < ((max n 1 : Nat) : Int) := by omega
    have hlt := Int.emod_lt_of_pos u hpos
    have hnonneg := Int.emod_nonneg u (Int.ne_of_gt hpos)
    refine ⟨some (u - u % (max n 1 : Nat)), ?_, fun t ht => ?_, nofun⟩
    · unfold Schedule.lastAtOrBefore
      dsimp only
      rw [i64_stamp (by omega) (by omega)]
      rfl
    · cases ht
      refine ⟨by omega, multiple_self, fun k hk hkt hocc => ?_⟩
      have hle := multiple_last hpos hocc hk
      omega
  | fields f =>
    have heq : (Schedule.fields f).lastAtOrBefore u = f.lastAtOrBefore u := rfl
    rw [heq, lastAtOrBefore_eq]
    refine ⟨_, secondOf_eq_ok.mpr ⟨rfl, fun m hm => ?_⟩, fun t ht => ?_, fun hnone k hk hle => ?_⟩
    · obtain ⟨hbound, hle, -⟩ := Search.down_eq_some.mp hm
      unfold window at hbound
      constructor <;> omega
    · obtain ⟨m, hm, rfl⟩ := Option.map_eq_some_iff.mp ht
      obtain ⟨-, hle, hmatch, hafter⟩ := Search.down_eq_some.mp hm
      refine ⟨by omega, occurs_minute.mpr hmatch, fun k hk hkm hocc => ?_⟩
      obtain ⟨j, rfl, hj⟩ := occurs_fields hocc
      exact hafter j (by omega) (by omega) hj
    · obtain ⟨j, rfl, hj⟩ := occurs_fields hk
      have hdown := Search.down_eq_none.mp (Option.map_eq_none_iff.mp hnone) j (by omega)
      refine Int.le_of_not_gt fun hgt => hdown (by omega) hj

/-- What a job is due for: a second its schedule names that has gone by since
the one recorded, and where the search reaches, what is to be claimed. -/
theorem when_spec {last now : Int} (waking : Bool) (hne : s ≠ .reboot) (hshort : s.Short)
    (hlast : IsStamp last) (hnow : IsStamp now) : ∃ r, when s last now waking = .ok r
      ∧ (∀ o, r = some o → s.Occurs c o ∧ last < o ∧ o ≤ now)
      ∧ (s.Reached c last now → Rightly (s.Occurs c) last now r) := by
  obtain ⟨next, hnext, hnextSome, hnextNone⟩ := next_spec (c := c) hne hshort hlast
  obtain ⟨before, hbefore, hbeforeSome, hbeforeNone⟩ := last_spec (c := c) hne hshort hnow
  have hwhen : when s last now waking = s.nextAfter last >>= fun next =>
      next.elim (pure none) fun next =>
        if next > now then pure none
        else s.lastAtOrBefore now >>= fun before =>
          pure (some (max (before.getD next) next)) := by
    cases s with
    | reboot => exact absurd rfl hne
    | every n =>
      exact congrArg ((Schedule.every n).nextAfter last >>= ·) (funext fun o => by cases o <;> rfl)
    | fields f =>
      exact congrArg ((Schedule.fields f).nextAfter last >>= ·) (funext fun o => by cases o <;> rfl)
  rw [hwhen, hnext, Outcome.ok_bind]
  -- no second that has gone by, so nothing is claimed
  have hidle : (∀ k, s.Occurs c k → last < k → now < k) → Rightly (s.Occurs c) last now none :=
    fun h => ⟨nofun, fun _ => h, fun _ => rfl⟩
  cases next with
  | none =>
    refine ⟨none, rfl, nofun, fun hreached => hidle fun k hk hlt => ?_⟩
    refine Int.lt_of_not_ge fun hge => ?_
    obtain ⟨t, hfirst, htk⟩ := Search.exists_first (n := last + 1) (by omega) hk
    obtain ⟨t', hlastOf, -⟩ := Search.exists_last hge hk
    have hwithin := (hreached t t' hfirst hlastOf (by omega)).1
    have hbeyond := hnextNone rfl t hfirst.2.1 (by have hle := hfirst.1; omega)
    omega
  | some t =>
    obtain ⟨hle, hocc, hnobefore⟩ := hnextSome t rfl
    have hfirst : Search.IsFirst (s.Occurs c) (last + 1) t := ⟨hle, hocc, hnobefore⟩
    rw [Option.elim_some]
    by_cases hgt : t > now
    · rw [if_pos hgt]
      refine ⟨none, rfl, nofun, fun _ => hidle fun k hk hlt => ?_⟩
      refine Int.lt_of_not_ge fun hge => hnobefore k (by omega) (by omega) hk
    · rw [if_neg hgt, hbefore, Outcome.ok_bind]
      obtain ⟨t', hlastOf, hkt'⟩ := Search.exists_last (Int.not_lt.mp hgt) hocc
      have hsome : ∀ o, Search.IsLast (s.Occurs c) now o → last < o →
          Rightly (s.Occurs c) last now (some o) := by
        rintro o ⟨hole, hoocc, hoafter⟩ holt
        refine ⟨fun o' ho' => ?_, nofun, fun h => ?_⟩
        · cases ho'
          exact ⟨hoocc, holt, hole, fun k hk hlt =>
            Int.lt_of_not_ge fun hge => hoafter k hge hlt hk⟩
        · have hlt := h o hoocc holt
          omega
      cases before with
      | none =>
        rw [Option.getD_none, Int.max_self]
        refine ⟨some t, rfl, fun o ho => ?_, fun hreached => ?_⟩
        · cases ho
          exact ⟨hocc, by omega, by omega⟩
        · have hfar := hbeforeNone rfl t' hlastOf.2.1 hlastOf.1
          obtain rfl := (hreached t t' hfirst hlastOf (by omega)).2.resolve_left (by omega)
          exact hsome t' hlastOf (by omega)
      | some o =>
        have ho := hbeforeSome o rfl
        have hto : t ≤ o := Int.le_of_not_gt fun hlt => ho.2.2 t (by omega) hlt hocc
        rw [Option.getD_some, Int.max_eq_left hto]
        refine ⟨some o, rfl, fun o' ho' => ?_, fun _ => hsome o ho (by omega)⟩
        cases ho'
        exact ⟨ho.2.1, by omega, ho.1⟩

end Times

/-! ## Rounds -/

theorem when_ok {last now : Int} (waking : Bool) (hshort : s.Short)
    (hlast : IsStamp last) (hnow : IsStamp now) : ∃ r, when s last now waking = .ok r := by
  by_cases hne : s = .reboot
  · rw [hne]
    exact ⟨_, rfl⟩
  · obtain ⟨r, hr, -⟩ := when_spec (c := civilCalendar) waking hne hshort hlast hnow
    exact ⟨r, hr⟩

/-- What a job leaves alone: the records of the others and the claims made
before it. -/
structure Looked (jobs : List Job) (p q : Progress) : Prop where
  fired : ∀ i, (∀ j ∈ jobs, j.id ≠ i) → q.fired i = p.fired i
  claimed : ∃ more, q.claimed = p.claimed ++ more ∧ ∀ x ∈ more, x.1 ∈ jobs
  stopped : q.stopped = true → p.stopped = true ∨ q.claimed.length = atOnce

theorem Looked.refl (jobs : List Job) (p : Progress) : Looked jobs p p :=
  ⟨fun _ _ => rfl, ⟨[], (List.append_nil _).symm, nofun⟩, fun h => .inl h⟩

theorem Looked.trans {jobs jobs' : List Job} {p q r : Progress} (hp : Looked jobs p q)
    (hq : Looked jobs' q r) (hstop : q.stopped = false) : Looked (jobs ++ jobs') p r := by
  obtain ⟨more, hmore, hin⟩ := hp.claimed
  obtain ⟨more', hmore', hin'⟩ := hq.claimed
  refine ⟨fun i hi => ?_, ⟨more ++ more', ?_, fun x hx => ?_⟩, fun h => .inr ?_⟩
  · rw [hq.fired i fun j hj => hi j (List.mem_append_right _ hj),
      hp.fired i fun j hj => hi j (List.mem_append_left _ hj)]
  · rw [hmore', hmore, List.append_assoc]
  · rcases List.mem_append.mp hx with hx | hx
    · exact List.mem_append_left _ (hin x hx)
    · exact List.mem_append_right _ (hin' x hx)
  · exact (hq.stopped h).resolve_left (by rw [hstop]; exact Bool.false_ne_true)

theorem Looked.mono {jobs jobs' : List Job} {p q : Progress} (h : Looked jobs p q)
    (hsub : ∀ j ∈ jobs, j ∈ jobs') : Looked jobs' p q := by
  obtain ⟨more, hmore, hin⟩ := h.claimed
  exact ⟨fun i hi => h.fired i fun j hj => hi j (hsub j hj),
    ⟨more, hmore, fun x hx => hsub _ (hin x hx)⟩, h.stopped⟩

theorem claim_frame {fired : FiredFor} {id occurrence i : Int} (h : id ≠ i) :
    (claim fired id occurrence).2 i = fired i := by
  unfold claim
  split
  · exact Function.update_of_ne (Ne.symm h) _ _
  · split
    · exact Function.update_of_ne (Ne.symm h) _ _
    · rfl

theorem firstSeen_frame {fired : FiredFor} {id now i : Int} (h : id ≠ i) :
    firstSeen fired id now i = fired i := by
  unfold firstSeen
  cases fired id with
  | none => exact Function.update_of_ne (Ne.symm h) _ _
  | some last => rfl

section Loop

variable {rows : FiredFor} {now : Int} (waking : Bool)

theorem look_looked (hrows : ∀ id t, rows id = some t → IsStamp t) (hnow : IsStamp now)
    {job : Job} (hsteps : StepsFit job.schedule) (p : Progress) :
    ∃ q, look rows now waking job p = .ok q ∧ Looked [job] p q := by
  unfold look
  cases hparse : parse job.schedule with
  | panicked => exact absurd hparse ((parse_fits _).mpr hsteps)
  | err _ => exact ⟨p, rfl, .refl _ p⟩
  | ok schedule =>
    cases hlast : rows job.id with
    | none =>
      exact ⟨_, rfl, fun i hi => firstSeen_frame (hi job (List.mem_singleton_self job)),
        ⟨[], (List.append_nil _).symm, nofun⟩, fun h => .inl h⟩
    | some last =>
      obtain ⟨r, hr⟩ := when_ok waking (parse_short hparse) (hrows _ _ hlast) hnow
      dsimp only
      rw [hr, Outcome.ok_bind]
      cases r with
      | none => exact ⟨p, rfl, .refl _ p⟩
      | some occurrence =>
        refine ⟨_, rfl, fun i hi => claim_frame (hi job (List.mem_singleton_self job)), ?_,
          fun h => .inr (of_decide_eq_true h)⟩
        split
        · exact ⟨[(job, occurrence)], rfl, fun x hx => by
            cases List.mem_singleton.mp hx
            exact List.mem_singleton_self job⟩
        · exact ⟨[], (List.append_nil _).symm, nofun⟩

theorem walk_looked (hrows : ∀ id t, rows id = some t → IsStamp t) (hnow : IsStamp now)
    {jobs : List Job} (hsteps : ∀ j ∈ jobs, StepsFit j.schedule) (p : Progress) :
    ∃ q, walk rows now waking jobs p = .ok q ∧ Looked jobs p q := by
  induction jobs generalizing p with
  | nil => exact ⟨p, rfl, .refl _ p⟩
  | cons job jobs ih =>
    obtain ⟨hjob, hjobs⟩ := List.forall_mem_cons.mp hsteps
    obtain ⟨q, hq, hlooked⟩ := look_looked waking hrows hnow hjob p
    rw [walk, hq, Outcome.ok_bind]
    by_cases hstop : q.stopped = true
    · rw [if_pos hstop]
      exact ⟨q, rfl, hlooked.mono fun j hj => (List.mem_singleton.mp hj) ▸ List.mem_cons_self⟩
    · rw [if_neg hstop]
      obtain ⟨r, hr, hrest⟩ := ih hjobs q
      exact ⟨r, hr, hlooked.trans hrest (eq_false_of_ne_true hstop)⟩

/-- What a claim that is taken adds. -/
def Progress.take (p : Progress) (job : Job) (due : Option Int) : Progress :=
  due.elim p fun occurrence =>
    ⟨(p.claimed ++ [(job, occurrence)]).length = atOnce, p.claimed ++ [(job, occurrence)],
      Function.update p.fired job.id (some occurrence)⟩

/-- A job whose record is what the round has read takes what it is due for. -/
theorem look_take {job : Job} {s : Schedule} {last : Int} {o : Option Int} {p : Progress}
    (hparse : parse job.schedule = .ok s) (hrow : rows job.id = some last)
    (hrecorded : p.fired job.id = some last) (ho : when s last now waking = .ok o)
    (hlater : ∀ occurrence, o = some occurrence → last < occurrence) :
    look rows now waking job p = .ok (p.take job o) := by
  unfold look
  rw [hparse]
  rw [hrow]
  dsimp only
  rw [ho, Outcome.ok_bind]
  cases o with
  | none => rfl
  | some occurrence =>
    have hclaim : claim p.fired job.id occurrence
        = (true, Function.update p.fired job.id (some occurrence)) := by
      unfold claim
      rw [hrecorded]
      exact if_pos (hlater occurrence rfl)
    dsimp only
    rw [hclaim]
    rfl

end Loop

/-- The claims of jobs that are not this one do not hold one of it. -/
theorem find_other {job : Job} {claimed : List (Job × Int)}
    (h : ∀ x ∈ claimed, x.1.id ≠ job.id) : claimed.find? (·.1.id = job.id) = none := by
  rw [List.find?_eq_none]
  intro x hx
  simpa using h x hx

section Turns

variable {job : Job} {s : Schedule} {last : Int}

/-- What a round does with a job: it has made its claims ahead of it, or it
claims what the job is due for and records it. -/
theorem turn_spec (r : Round job) (hparse : parse job.schedule = .ok s) (hne : s ≠ .reboot)
    (hlast : IsStamp last) (hsteps : ∀ j ∈ r.jobs, StepsFit j.schedule) :
    ∃ t, r.turn last = .ok t ∧ t.now = r.now ∧ t.last = last
      ∧ ((t.Crowded job ∧ t.claim job = none ∧ t.next = last)
        ∨ (when s last r.now r.waking = .ok (t.claim job)
          ∧ t.next = (t.claim job).getD last)) := by
  set rows : FiredFor := Function.update r.fired job.id (some last) with hrowsDef
  have hself : rows job.id = some last := Function.update_self ..
  have hrows : ∀ id t, rows id = some t → IsStamp t := by
    intro id t ht
    by_cases hid : id = job.id
    · rw [hid, hself] at ht
      exact Option.some.inj ht ▸ hlast
    · rw [hrowsDef, Function.update_of_ne hid] at ht
      exact r.fired_stamp id t ht
  have hbehind : ∀ j ∈ r.behind, StepsFit j.schedule := fun j hj =>
    hsteps j (List.mem_append_right _ (.tail _ hj))
  obtain ⟨p, hp, hahead⟩ := walk_looked r.waking hrows r.now_stamp
    (fun j hj => hsteps j (List.mem_append_left _ hj)) ⟨false, [], rows⟩
  obtain ⟨before, hbefore, hbeforeIn⟩ := hahead.claimed
  rw [List.nil_append] at hbefore
  have hbeforeLt : ∀ x ∈ before, x.1.id < job.id := fun x hx => r.ahead_lt _ (hbeforeIn x hx)
  have hrecorded : p.fired job.id = some last :=
    (hahead.fired job.id fun j hj => Int.ne_of_lt (r.ahead_lt j hj)).trans hself
  have hnone : before.find? (·.1.id = job.id) = none :=
    find_other fun x hx => Int.ne_of_lt (hbeforeLt x hx)
  have hwalk : walk rows r.now r.waking r.jobs ⟨false, [], rows⟩
      = if p.stopped then pure p else walk rows r.now r.waking (job :: r.behind) p := by
    rw [Round.jobs, walk_append _ _ _ _ _ _ rfl, hp, Outcome.ok_bind]
  unfold Round.turn due
  rw [← hrowsDef, hwalk]
  by_cases hstop : p.stopped = true
  · rw [if_pos hstop]
    refine ⟨_, rfl, rfl, rfl, .inl ⟨?_, ?_, ?_⟩⟩
    · have hall : before.filter (·.1.id < job.id) = before :=
        List.filter_eq_self.mpr fun x hx => decide_eq_true (hbeforeLt x hx)
      change atOnce ≤ (p.claimed.filter (·.1.id < job.id)).length
      rw [hbefore, hall, ← hbefore]
      exact Nat.le_of_eq ((hahead.stopped hstop).resolve_left Bool.false_ne_true).symm
    · change (p.claimed.find? (·.1.id = job.id)).map (·.2) = none
      rw [hbefore, hnone]
      rfl
    · change (p.fired job.id).getD last = last
      rw [hrecorded]
      rfl
  · rw [if_neg hstop]
    -- the jobs behind leave this one's claim and its record alone
    have hrest : ∀ q : Progress, ∃ q', (if q.stopped then pure q
          else walk rows r.now r.waking r.behind q) = .ok q'
        ∧ q'.fired job.id = q.fired job.id
        ∧ q'.claimed.find? (·.1.id = job.id) = q.claimed.find? (·.1.id = job.id) := by
      intro q
      by_cases hq : q.stopped = true
      · rw [if_pos hq]
        exact ⟨q, rfl, rfl, rfl⟩
      · rw [if_neg hq]
        obtain ⟨q', hq', hlooked⟩ := walk_looked r.waking hrows r.now_stamp hbehind q
        obtain ⟨more, hmore, hmoreIn⟩ := hlooked.claimed
        refine ⟨q', hq', hlooked.fired job.id fun j hj =>
          (Int.ne_of_lt (r.behind_gt j hj)).symm, ?_⟩
        rw [hmore, List.find?_append, find_other fun x hx =>
          (Int.ne_of_lt (r.behind_gt _ (hmoreIn x hx))).symm, Option.or_none]
    obtain ⟨o, ho, hocc, -⟩ := when_spec (c := civilCalendar) r.waking hne (parse_short hparse)
      hlast r.now_stamp
    have hlook := look_take r.waking hparse hself hrecorded ho fun x hx => (hocc x hx).2.1
    rw [walk, hlook, Outcome.ok_bind]
    obtain ⟨q', hq', hfired, hfind⟩ := hrest (p.take job o)
    rw [hq']
    refine ⟨_, rfl, rfl, rfl, .inr ?_⟩
    change when s last r.now r.waking
        = .ok ((q'.claimed.find? (·.1.id = job.id)).map (·.2))
      ∧ (q'.fired job.id).getD last = ((q'.claimed.find? (·.1.id = job.id)).map (·.2)).getD last
    rw [hfind, hfired, ho]
    cases o with
    | none =>
      change Outcome.ok none = Outcome.ok ((p.claimed.find? (·.1.id = job.id)).map (·.2))
        ∧ (p.fired job.id).getD last
          = ((p.claimed.find? (·.1.id = job.id)).map (·.2)).getD last
      rw [hbefore, hnone, hrecorded]
      exact ⟨rfl, rfl⟩
    | some occurrence =>
      have hfound : (p.take job (some occurrence)).claimed.find? (·.1.id = job.id)
          = some (job, occurrence) := by
        change (p.claimed ++ [(job, occurrence)]).find? (·.1.id = job.id) = _
        rw [hbefore, List.find?_append, hnone, Option.none_or]
        exact List.find?_cons_of_pos (decide_eq_true rfl)
      have hput : (p.take job (some occurrence)).fired job.id = some occurrence :=
        Function.update_self ..
      rw [hfound, hput]
      exact ⟨rfl, rfl⟩

/-- In every run of rounds the seconds a job is claimed for go up from the
one recorded, and they are seconds its schedule names that have gone by. A
round claims the last of them, and nothing only where none has gone by,
wherever the search reaches, but for a round that has made its eight claims
ahead of the job. -/
theorem rounds_fire (c : Calendar) (hparse : parse job.schedule = .ok s) (hne : s ≠ .reboot)
    (hlast : IsStamp last) (rs : List (Round job))
    (hsteps : ∀ r ∈ rs, ∀ j ∈ r.jobs, StepsFit j.schedule) : ∃ ts, turns last rs = .ok ts
      ∧ (last :: ts.filterMap (·.claim job)).Pairwise (· < ·)
      ∧ ∀ t ∈ ts, (∀ o, t.claim job = some o → s.Occurs c o ∧ t.last < o ∧ o ≤ t.now)
        ∧ ((t.Crowded job ∧ t.claim job = none ∧ t.next = t.last)
          ∨ (s.Reached c t.last t.now → t.Right c s job)) := by
  induction rs generalizing last with
  | nil => exact ⟨[], rfl, List.pairwise_singleton .., nofun⟩
  | cons r rs ih =>
    obtain ⟨hr, hrs⟩ := List.forall_mem_cons.mp hsteps
    obtain ⟨t, ht, hnow, htlast, hturn⟩ := turn_spec r hparse hne hlast hr
    obtain ⟨o, ho, hocc, hright⟩ := when_spec (c := c) r.waking hne (parse_short hparse) hlast
      r.now_stamp
    -- a claim is of something that is due, and the record goes to it
    have hclaim : ∀ x, t.claim job = some x → s.Occurs c x ∧ last < x ∧ x ≤ r.now := by
      intro x hx
      rcases hturn with ⟨-, hnone, -⟩ | ⟨hwhen, -⟩
      · rw [hnone] at hx
        cases hx
      · rw [ho, Outcome.ok.injEq] at hwhen
        exact hocc x (hwhen.trans hx)
    have hnext : t.next = (t.claim job).getD last := by
      rcases hturn with ⟨-, hnone, hnext⟩ | ⟨-, hnext⟩
      · rw [hnone, hnext]
        rfl
      · exact hnext
    have hstamp : IsStamp t.next := by
      rw [hnext]
      cases hx : t.claim job with
      | none => exact hlast
      | some x =>
        obtain ⟨-, hlt, hle⟩ := hclaim x hx
        exact ⟨Int.le_trans hlast.1 (Int.le_of_lt hlt), Int.lt_of_le_of_lt hle r.now_stamp.2⟩
    obtain ⟨ts, hts, hup, hall⟩ := ih hstamp hrs
    refine ⟨t :: ts, by rw [turns, ht, Outcome.ok_bind, hts]; rfl, ?_,
      List.forall_mem_cons.mpr ⟨⟨fun x hx => ?_, ?_⟩, hall⟩⟩
    · rw [hnext] at hup
      cases hx : t.claim job with
      | none =>
        have hcons : (t :: ts).filterMap (·.claim job) = ts.filterMap (·.claim job) :=
          List.filterMap_cons_none hx
        rw [hx] at hup
        rw [hcons]
        exact hup
      | some x =>
        have hcons : (t :: ts).filterMap (·.claim job) = x :: ts.filterMap (·.claim job) :=
          List.filterMap_cons_some hx
        rw [hx] at hup
        rw [hcons]
        refine List.pairwise_cons.mpr ⟨fun y hy => ?_, hup⟩
        have hlt := (hclaim x hx).2.1
        rcases List.mem_cons.mp hy with rfl | hy
        · exact hlt
        · exact Int.lt_trans hlt ((List.pairwise_cons.mp hup).1 y hy)
    · rw [htlast, hnow]
      exact hclaim x hx
    · rcases hturn with ⟨hcrowded, hnone, hkept⟩ | ⟨hwhen, -⟩
      · exact .inl ⟨hcrowded, hnone, hkept.trans htlast.symm⟩
      · refine .inr fun hreached => ?_
        rw [htlast, hnow] at hreached
        rw [ho, Outcome.ok.injEq] at hwhen
        unfold Turn.Right
        rw [htlast, hnow, ← hwhen]
        exact hright hreached

end Turns

/-- A job of every second. -/
def everySecond (id : Int) : Job := ⟨id, "1 second".toList⟩

theorem second_read : parse "1 second".toList = .ok (.every 1) := by
  decide +kernel

theorem everySecond_read (id : Int) : parse (everySecond id).schedule = .ok (.every 1) :=
  second_read

/-- A second after the epoch, with eight jobs ahead that were last fired for
it. -/
def ninthRound : Round (everySecond 9) where
  now := 1
  waking := false
  ahead := [1, 2, 3, 4, 5, 6, 7, 8].map everySecond
  behind := []
  fired := fun _ => some 0
  ahead_lt := by decide
  behind_gt := by decide
  now_stamp := by decide
  fired_stamp := fun _ _ h => by
    cases h
    decide

/-- Eight jobs are claimed, and the ninth that is due as well is not. -/
theorem ninth_not_claimed : parse (everySecond 9).schedule = .ok (.every 1)
    ∧ ∃ t, turns 0 [ninthRound] = .ok [t] ∧ ¬ t.Right civilCalendar (.every 1) (everySecond 9) := by
  have hrun : turns 0 [ninthRound]
      = .ok [⟨1, 0, [1, 2, 3, 4, 5, 6, 7, 8].map fun id => (everySecond id, 1), 0⟩] := by
    decide +kernel
  refine ⟨everySecond_read 9, _, hrun, fun hright => ?_⟩
  have hgone := hright.idle.mp (by decide) 1 rfl (by decide)
  exact absurd hgone (by decide)

/-- Every fifth minute. -/
def fiveMinutes : Job := ⟨9, "*/5 * * * *".toList⟩

def fiveMinutesFields : Fields :=
  ⟨0x84210842108421, 2 ^ 24 - 1, 2 ^ 32 - 2, 2 ^ 13 - 2, 2 ^ 7 - 1, true, true⟩

theorem fiveMinutes_read : parse fiveMinutes.schedule = .ok (.fields fiveMinutesFields) := by
  decide +kernel

def fiveMinutesRound (now : Int) (waking : Bool) (h : IsStamp now) : Round fiveMinutes where
  now := now
  waking := waking
  ahead := [everySecond 4]
  behind := []
  fired := fun _ => some 0
  ahead_lt := by decide
  behind_gt := by decide
  now_stamp := h
  fired_stamp := fun _ _ h => by
    cases h
    decide

/-- A round on time, one with nothing due, and one after a gap. -/
def fiveMinutesRounds : List (Round fiveMinutes) :=
  [fiveMinutesRound 301 false (by decide), fiveMinutesRound 320 false (by decide),
    fiveMinutesRound 1000 true (by decide)]

/-- The round after the gap claims the last of the two that have gone by. -/
theorem rounds_fire_fiveMinutes : ∃ ts, turns 0 fiveMinutesRounds = .ok ts
    ∧ ts.map (·.claim fiveMinutes) = [some 300, none, some 900]
    ∧ ∀ t ∈ ts, t.Right civilCalendar (.fields fiveMinutesFields) fiveMinutes := by
  have hsteps : ∀ r ∈ fiveMinutesRounds, ∀ j ∈ r.jobs, StepsFit j.schedule := by
    intro r hr j hj
    have hjobs : r.jobs = [everySecond 4, fiveMinutes] := by
      simp only [fiveMinutesRounds, List.mem_cons, List.not_mem_nil, or_false] at hr
      rcases hr with rfl | rfl | rfl <;> rfl
    rw [hjobs, List.mem_cons, List.mem_singleton] at hj
    rcases hj with rfl | rfl
    · rw [← parse_fits, everySecond_read]
      simp
    · rw [← parse_fits, fiveMinutes_read]
      simp
  obtain ⟨ts, hts, -, hall⟩ := rounds_fire civilCalendar fiveMinutes_read (by decide)
    (show IsStamp 0 by decide) fiveMinutesRounds hsteps
  have hrun : turns 0 fiveMinutesRounds = .ok
      [⟨301, 0, [(everySecond 4, 301), (fiveMinutes, 300)], 300⟩,
        ⟨320, 300, [(everySecond 4, 320)], 300⟩,
        ⟨1000, 300, [(everySecond 4, 1000), (fiveMinutes, 900)], 900⟩] := by
    decide +kernel
  rw [hrun, Outcome.ok.injEq] at hts
  subst hts
  refine ⟨_, hrun, rfl, fun t ht => ?_⟩
  -- one job ahead is no crowd, and no round comes years after the last
  rcases (hall t ht).2 with ⟨hcrowd, -⟩ | hright
  · simp only [List.mem_cons, List.not_mem_nil, or_false] at ht
    rcases ht with rfl | rfl | rfl <;> exact absurd (show 8 ≤ 1 from hcrowd) (by decide)
  · refine hright (Schedule.reached_near ?_)
    simp only [List.mem_cons, List.not_mem_nil, or_false] at ht
    rcases ht with rfl | rfl | rfl <;> decide

end Cron

end Zou
