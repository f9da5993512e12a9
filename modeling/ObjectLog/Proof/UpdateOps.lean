import ObjectLog.Proof.StageOps

/-!
# Replacing the head

One update names the version it replaces and carries the result of one change, so what it
does when it lands is known when it is sent. The publication loop sends at most one update
for each head it has seen, goes on only when the update was answered as rejected, and
rebuilds its candidate from a strictly newer head. Hence whenever it ends without having
published, every update it has sent names a head that is no longer the durable one
(`State.Clean`), and none of them can land any more.
-/

set_option linter.unusedSectionVars false

namespace ObjectLog

open Rely

variable [Blake3] {s s' u : State} {t : Nat} {A : Effect → Prop} {log : Log} {view : View}

/-! ## Updates of one call -/

/-- Every update of the head that call `t` has sent replaces a head before moment `m` and
was answered as rejected. -/
def State.Clean (s : State) (t m : Nat) : Prop :=
  ∀ (j : Nat) (f : Flight) bytes expected, s.flights[j]? = some f → f.tid = t →
    f.req = .updateHead bytes expected → (∃ i h, i < m ∧ s.HeadAt i h expected) ∧
      ∃ sent landed n, f = ⟨t, .updateHead bytes expected, sent, landed, some (n, .ok none)⟩

theorem State.Clean.le {m m' : Nat} (h : s.Clean t m) (hm : m ≤ m') : s.Clean t m' := by
  intro j f bytes expected hf ht hr
  obtain ⟨⟨i, hd, hi, hh⟩, htold⟩ := h j f bytes expected hf ht hr
  exact ⟨⟨i, hd, by omega, hh⟩, htold⟩

/-- A request that was answered as rejected was already so. -/
theorem State.Clean.old {m j : Nat} {f : Flight} {bytes : Bytes} {expected : UpdateVersion}
    (h : s.Clean t m) (hle : s.Le u) (hj : j < s.flights.length) (hf : u.flights[j]? = some f)
    (ht : f.tid = t) (hr : f.req = .updateHead bytes expected) :
    (∃ i h, i < m ∧ u.HeadAt i h expected) ∧
      ∃ sent landed n, f = ⟨t, .updateHead bytes expected, sent, landed, some (n, .ok none)⟩ := by
  obtain ⟨g, hg⟩ : ∃ g, s.flights[j]? = some g := ⟨_, List.getElem?_eq_getElem hj⟩
  obtain ⟨f', hf', l⟩ := hle.flights j g hg
  obtain rfl := Option.some.inj (hf'.symm.trans hf)
  obtain ⟨⟨i, hd, hi, hh⟩, sent, landed, n, rfl⟩ :=
    h j g bytes expected hg (l.tid.symm.trans ht) (l.req.symm.trans hr)
  refine ⟨⟨i, hd, hi, hh.mono hle⟩, sent, ?_⟩
  obtain ⟨landed', told', rfl, -, htold⟩ := l
  obtain rfl := htold _ rfl
  exact ⟨landed', n, rfl⟩

/-- A call that sends no update stays clean. -/
theorem State.Clean.track {m : Nat} (h : s.Clean t m) (tr : Track t A s u)
    (hA : ∀ bytes expected, ¬ A (.submit (.updateHead bytes expected))) : u.Clean t m := by
  intro j f bytes expected hf ht hr
  rcases Nat.lt_or_ge j s.flights.length with hlt | hge
  · exact h.old tr.le hlt hf ht hr
  · have := tr.flights j f hge hf ht
    rw [hr] at this
    exact absurd this (hA _ _)

theorem State.Clean.reads {m : Nat} (h : s.Clean t m) (tr : Track t Reads s u) : u.Clean t m :=
  h.track tr fun _ _ h => h

theorem State.Clean.others {m : Nat} (h : s.Clean t m) (o : Others t s u) : u.Clean t m :=
  h.reads o.track

/-- A call is clean again once its update was answered as rejected. -/
theorem State.Clean.rejected {i j L : Nat} {h : Head} {bytes : Bytes} {expected : UpdateVersion}
    (hc : s.Clean t i) (hle : s.Le u) (hh : u.HeadAt i h expected)
    (ans : u.AnsweredAt t (.updateHead bytes expected) L j none) (only : OnlyWrite t j s u) :
    u.Clean t (i + 1) := by
  intro j' f bytes' expected' hf ht hr
  rcases Nat.lt_or_ge j' s.flights.length with hlt | hge
  · obtain ⟨⟨i', h', hi', hh'⟩, htold⟩ := hc.old hle hlt hf ht hr
    exact ⟨⟨i', h', by omega, hh'⟩, htold⟩
  · obtain rfl := only j' f hge hf ht (by rw [hr]; exact fun h => h)
    obtain ⟨sent, n, landed, hf', -⟩ := ans
    obtain rfl := Option.some.inj (hf'.symm.trans hf)
    obtain ⟨rfl, rfl⟩ := Req.updateHead.inj hr
    exact ⟨⟨i, h, by omega, hh⟩, sent, landed, n, rfl⟩

/-- Every update of the head that call `t` has sent is the change `c` of some head. -/
def State.Sends (s : State) (t : Nat) (c : Change) : Prop :=
  ∀ (j : Nat) (f : Flight) bytes expected, s.flights[j]? = some f → f.tid = t →
    f.req = .updateHead bytes expected → ∃ h h', decodeHead bytes = .ok h' ∧ c.Result h h'

/-- A call that has sent no update at all. -/
theorem State.Clean.sends (h : s.Clean t 0) (c : Change) : s.Sends t c := by
  intro j f bytes expected hf ht hr
  obtain ⟨⟨i, hd, hi, -⟩, -⟩ := h j f bytes expected hf ht hr
  exact absurd hi (Nat.not_lt_zero i)

theorem State.Sends.old {c : Change} {j : Nat} {f : Flight} {bytes : Bytes}
    {expected : UpdateVersion} (h : s.Sends t c) (hle : s.Le u) (hj : j < s.flights.length)
    (hf : u.flights[j]? = some f) (ht : f.tid = t) (hr : f.req = .updateHead bytes expected) :
    ∃ h h', decodeHead bytes = .ok h' ∧ c.Result h h' := by
  obtain ⟨g, hg⟩ : ∃ g, s.flights[j]? = some g := ⟨_, List.getElem?_eq_getElem hj⟩
  obtain ⟨f', hf', l⟩ := hle.flights j g hg
  obtain rfl := Option.some.inj (hf'.symm.trans hf)
  exact h j g bytes expected hg (l.tid.symm.trans ht) (l.req.symm.trans hr)

theorem State.Sends.reads {c : Change} (h : s.Sends t c) (tr : Track t Reads s u) :
    u.Sends t c := by
  intro j f bytes expected hf ht hr
  rcases Nat.lt_or_ge j s.flights.length with hlt | hge
  · exact h.old tr.le hlt hf ht hr
  · have := tr.flights j f hge hf ht
    rw [hr] at this
    exact absurd this fun h => h

theorem State.Sends.others {c : Change} (h : s.Sends t c) (o : Others t s u) : u.Sends t c :=
  h.reads o.track

/-- One more update with the same change. -/
theorem State.Sends.sent {c : Change} {j L : Nat} {h h' : Head} {bytes : Bytes}
    {expected : UpdateVersion} {answer : Option UpdateVersion} (hs : s.Sends t c) (hle : s.Le u)
    (hd : decodeHead bytes = .ok h') (hres : c.Result h h')
    (ans : u.AnsweredAt t (.updateHead bytes expected) L j answer) (only : OnlyWrite t j s u) :
    u.Sends t c := by
  intro j' f bytes' expected' hf ht hr
  rcases Nat.lt_or_ge j' s.flights.length with hlt | hge
  · exact hs.old hle hlt hf ht hr
  · obtain rfl := only j' f hge hf ht (by rw [hr]; exact fun h => h)
    obtain ⟨sent, n, landed, hf', -⟩ := ans
    obtain rfl := Option.some.inj (hf'.symm.trans hf)
    obtain ⟨rfl, rfl⟩ := Req.updateHead.inj hr
    exact ⟨h, h', hd, hres⟩

/-- Call `t` has sent an update of the head of moment `i` and was answered that it was
rejected. -/
def State.Attempted (s : State) (t i : Nat) : Prop :=
  ∃ h v bytes j, s.HeadAt i h v ∧ s.AnsweredAt t (.updateHead bytes v) 0 j none

theorem State.Attempted.mono {i : Nat} (hle : s.Le s') (h : s.Attempted t i) :
    s'.Attempted t i := by
  obtain ⟨hd, v, bytes, j, hh, ha⟩ := h
  exact ⟨hd, v, bytes, j, hh.mono hle, ha.mono hle⟩

/-! ## One update -/

theorem encodeHead_of_valid {h : Head} (v : h.Valid) : ∃ bytes, encodeHead h = .ok bytes :=
  ⟨_, bind_ok.2 ⟨(), validate_ok.2 v, rfl⟩⟩

/-- The count of the checkpoint of a durable head was checked when it was read. -/
theorem State.HeadAt.counted {i : Nat} {h : Head} {v : UpdateVersion} (inv : Inv s)
    (hh : s.HeadAt i h v) : h.Counted := by
  intro c hc
  obtain ⟨ck, b⟩ := (inv.headStored hh).checkpoint c hc
  exact b.counted

/-- What a request that replaces the head of moment `i` owes the others. -/
theorem may_update {i : Nat} {h h' : Head} {c : Change} {bytes : Bytes} {expected : UpdateVersion}
    (inv : Inv s) (hh : s.HeadAt i h expected) (hd : decodeHead bytes = .ok h')
    (hlen : bytes.length ≤ h.options.maxHeadBytes.toNat) (hr : s.Replaces t s.now i h h' c)
    (new : ∀ p, c = .install p → ∀ j i', ¬ s.InstallFlight j i' (collectionPlanKey h.incarnation p)) :
    May t s (.submit (.updateHead bytes expected)) := by
  refine ⟨⟨i, h, c, h', hh, hd, hlen, hr⟩, fun i₁ h₁ h₂ p hh₁ hnone hd₂ hp j i' => ?_⟩
  obtain ⟨-, rfl⟩ := inv.version_unique hh₁ hh (.inl rfl)
  obtain rfl := Except.ok.inj (hd₂.symm.trans hd)
  rcases hr.result.activePlan with ⟨p', rfl, hp'⟩ | ⟨-, hn⟩ | ⟨-, -, hn⟩
  · obtain rfl := Option.some.inj (hp'.symm.trans hp)
    rw [hr.result.identity.2.1]
    exact new p' rfl j i'
  · rw [hn] at hp; cases hp
  · rw [hn, hnone] at hp; cases hp

/-- **One update of the head.** -/
theorem updateHead_runs {current : View} {candidate : Head} {c : Change} {i : Nat}
    (hA : Updates ≤ A) (g : Good s) (hl : s.LogOK log)
    (hh : s.HeadAt i current.head current.version) (hres : c.Result current.head candidate)
    (hguard : c.Guard current.head) (hcount : candidate.Counted)
    (just : ∀ u, Track t Reads s u → Good u → u.Justified t u.now i current.head c)
    (new : ∀ p, c = .install p → ∀ u, Track t Reads s u → Good u →
      ∀ j i', ¬ u.InstallFlight j i' (collectionPlanKey current.head.incarnation p)) :
    Runs t A (log.updateHead current candidate) (fun r u => match r with
      | .ok (some next) => next.head = candidate ∧ u.HeadAt (i + 1) next.head next.version ∧
          u.ViewOK u.now next
      | .ok none => ∃ j bytes, decodeHead bytes = .ok candidate ∧
          u.AnsweredAt t (.updateHead bytes current.version) s.now j none ∧ OnlyWrite t j s u
      | .error e => (∃ x, e = .store x) ∨ (Track t Reads s u ∧
          (e = .requestDenied ∨ ∃ what, e = .limitExceeded what))) s := by
  have hvalid : candidate.Valid := hres.valid hh.valid hguard
  have hR : Reads ≤ A := reads_updates.trans hA
  refine Runs.liftBind (fun bytes he => ?_) fun e u he _ _ => ?_
  swap
  · obtain ⟨bytes, hb⟩ := encodeHead_of_valid hvalid
    rw [hb] at he
    cases he
  refine Runs.liftBind (fun _ hsize => ?_) fun e u he o _ => ?_
  swap
  · refine .inr ⟨o.track, .inr ⟨"encoded head bytes", ?_⟩⟩
    unfold validateHeadSize ensure at he
    split at he
    · cases he
    · exact (Except.error.inj he).symm
  have hlen : bytes.length ≤ current.head.options.maxHeadBytes.toNat := by
    rw [(hl.head g.inv hh).2.2]
    exact ensure_ok.1 hsize
  have hdec : decodeHead bytes = .ok candidate :=
    decodeHead_encodeHead he hcount (lt_of_le_of_lt hlen (UInt64.toNat_lt _))
  refine Runs.bind le_rfl g (update_runs hR (hA _ (.inr ⟨_, _, rfl⟩)) g fun u tr gu => ?_) ?_ ?_
  · exact may_update gu.inv (hh.mono tr.le) hdec hlen ⟨hres, hguard, just u tr gu⟩
      fun p hp => new p hp u tr gu
  · rintro (_ | version) u tr gu h
    · rcases h with ⟨h, -⟩ | ⟨x, h⟩ | ⟨-, j, ans, only⟩ | ⟨v, h, -⟩
      · cases h
      · cases h
      · exact Runs.pure fun v o _ => ⟨j, bytes, hdec, ans.mono o.le, only.after o.track⟩
      · cases h
    · rcases h with ⟨h, -⟩ | ⟨x, h⟩ | ⟨h, -⟩ | ⟨v, hv, i', stored, hst, hver, hnext⟩
      · cases h
      · cases h
      · cases h
      obtain rfl := Option.some.inj (Except.ok.inj hv)
      -- the head that was replaced is the one the update names
      obtain rfl : i = i' := by
        obtain ⟨hd, hdec', -⟩ := gu.inv.heads stored (List.mem_of_getElem? hst)
        exact (gu.inv.version_unique (hh.mono tr.le) ⟨stored.bytes, hst, hdec'⟩
          (.inl hver.symm)).1
      have hh' : u.HeadAt (i + 1) candidate version := ⟨bytes, hnext, hdec⟩
      refine Runs.bind le_rfl gu (newView_runs hR gu ⟨_, hh'⟩) ?_ nofun
      rintro next v tr' gv ⟨id, hid, o, ho, e1, e2⟩
      obtain rfl := Except.ok.inj hid
      refine Runs.pure fun w o' _ => ⟨rfl, (hh'.mono tr'.le).mono o'.le, ?_⟩
      refine State.ViewOK.mono (L := v.now) o'.le o'.le.now ⟨⟨i + 1, ?_, hh'.mono tr'.le⟩, ?_⟩
      · exact (hh'.mono tr'.le).lt
      · exact ⟨o, ho, e1, e2⟩
  · rintro e u tr gu (⟨h, tr'⟩ | ⟨x, h⟩ | ⟨h, -⟩ | ⟨v, h, -⟩)
    · exact .inr ⟨tr', .inl (Except.error.inj h)⟩
    · exact .inl ⟨x, Except.error.inj h⟩
    · cases h
    · cases h

/-! ## The publication loop -/

/-- What call `t` needs to know to publish the change `c` on every head that is compatible
with its source and not older than moment `i₀`. -/
structure Publishing (s : State) (t : Nat) (log : Log) (source : View)
    (compatible : Head → Head → Bool) (c : Change) (i₀ : Nat) : Prop where
  log : s.LogOK log
  keeps : ∀ p, c ≠ .install p
  ready : ∀ u i h v, s.Le u → Good u → u.HeadAt i h v → i₀ ≤ i → compatible source.head h = true →
    c.Guard h ∧ u.Justified t u.now i h c
  counted : ∀ through object, c = .checkpoint through object → object.Counted

theorem Publishing.mono {source : View} {compatible : Head → Head → Bool} {c : Change} {i₀ : Nat}
    (hle : s.Le s') (h : Publishing s t log source compatible c i₀) :
    Publishing s' t log source compatible c i₀ where
  log := h.log.mono hle
  keeps := h.keeps
  ready := fun u i hd v hu => h.ready u i hd v (hle.trans hu)
  counted := h.counted

theorem Publishing.later {source : View} {compatible : Head → Head → Bool} {c : Change}
    {i₀ i₁ : Nat} (hi : i₀ ≤ i₁) (h : Publishing s t log source compatible c i₀) :
    Publishing s t log source compatible c i₁ :=
  { h with ready := fun u i hd v hu gu hh h₁ => h.ready u i hd v hu gu hh (hi.trans h₁) }

/-- What the outcome of a publication that made `n` more attempts says. -/
def PublicationOK (t L : Nat) (source : View) (compatible : Head → Head → Bool) (c : Change)
    (i₀ n : Nat) (r : Except Error HeadPublication) (u : State) : Prop :=
  match r with
  | .ok (.updated next) => ∃ i h v, i₀ ≤ i ∧ u.HeadAt i h v ∧ compatible source.head h = true ∧
      u.HeadAt (i + 1) next.head next.version ∧ c.Result h next.head ∧ u.ViewOK u.now next
  | .ok (.changed current generation) => Loaded t L current u ∧
      ¬ compatible source.head current.head = true ∧
      ∃ m, u.HeadAt m current.head current.version ∧ u.Clean t m ∧ u.Sends t c ∧
      ∃ i h v, i₀ ≤ i ∧ i < m ∧ u.HeadAt i h v ∧ compatible source.head h = true ∧
        generation = h.generation
  | .ok (.contended current) => Loaded t L current u ∧
      compatible source.head current.head = true ∧
      ∃ m, u.HeadAt m current.head current.version ∧ u.Clean t m ∧ u.Sends t c ∧
      (1 < n → L ≤ m) ∧ ∃ is : List Nat, is.length = n ∧ is.Pairwise (· < ·) ∧
        ∀ i ∈ is, i₀ ≤ i ∧ i < m ∧ u.Attempted t i
  | .ok .pending => True
  | .error e => (∃ m h v, i₀ ≤ m ∧ u.HeadAt m h v ∧ compatible source.head h = true ∧
      u.Clean t m) ∧ (e = .requestDenied ∨ (∃ what, e = .limitExceeded what) ∨
        ∃ through object h, c = .checkpoint through object ∧ compatible source.head h = true ∧
          through ∉ h.tail ∧ e = invalid "the checkpoint entry is not in the active tail")

section

variable {source : View} {compatible : Head → Head → Bool} {c : Change} {i₀ L : Nat}
  {candidate : View → Except Error Head} {again : View → Op HeadPublication}

/-- The checkpoint of the result of a change is counted. -/
theorem Change.Result.counted {h h' : Head} (hr : c.Result h h') (hc : h.Counted)
    (ho : ∀ through object, c = .checkpoint through object → object.Counted) : h'.Counted := by
  intro x hx
  rcases hr.records with ⟨_, -, -, he⟩ | ⟨through, object, _, rfl, -, -, he⟩ | ⟨-, -, -, he⟩
  · exact hc x (he ▸ hx)
  · obtain rfl := Option.some.inj (he.symm.trans hx)
    exact ho through object rfl
  · exact hc x (he ▸ hx)

/-- **One attempt.** The loop goes on from a strictly newer head. -/
theorem publishAttempt_runs {n i : Nat} (hA : Updates ≤ A) (g : Good s) (hL : L ≤ s.now)
    (pub : Publishing s t log source compatible c i₀)
    (hcand : ∀ v : View, candidate v = c.apply v.head)
    (hh : s.HeadAt i view.head view.version) (hi : i₀ ≤ i)
    (hcomp : compatible source.head view.head = true) (clean : s.Clean t i) (sends : s.Sends t c)
    (next : ∀ (current : View) (u : State) (m : Nat), s.Le u → Good u → Loaded t L current u →
      u.HeadAt m current.head current.version → i < m →
      compatible source.head current.head = true → u.Clean t m → u.Sends t c → u.Attempted t i →
      Runs t A (again current) (PublicationOK t L source compatible c i₀ n) u) :
    Runs t A (log.publishAttempt source candidate compatible again view)
      (PublicationOK t L source compatible c i₀ n) s := by
  have hR : Reads ≤ A := reads_updates.trans hA
  refine Runs.liftBind (fun head hhead => ?_) fun e u he o gu => ?_
  swap
  · rw [hcand] at he
    refine ⟨⟨i, view.head, view.version, hi, hh.mono o.le, hcomp, clean.others o⟩, ?_⟩
    rcases Change.apply_error he with hlim | ⟨through, object, rfl, hno, he'⟩
    · exact .inr (.inl hlim)
    · exact .inr (.inr ⟨through, object, view.head, rfl, hcomp, hno, he'⟩)
  rw [hcand] at hhead
  have hres := Change.apply_result hhead
  have hcount := hres.counted (hh.counted g.inv) pub.counted
  obtain ⟨hguard, -⟩ := pub.ready s i _ _ (.refl s) g hh hi hcomp
  refine Runs.attemptBind le_rfl g (updateHead_runs hA g pub.log hh hres hguard hcount
    (fun u tr gu => (pub.ready u i _ _ tr.le gu (hh.mono tr.le) hi hcomp).2)
    (fun p hp => absurd hp (pub.keeps p))) ?_
  rintro (e | (_ | updated)) u tr gu h
  · -- the update failed or was refused
    cases e with
    | store x => exact Runs.pure fun _ _ _ => trivial
    | _ =>
        refine Runs.throw fun v o gv => ?_
        rcases h with ⟨x, hx⟩ | ⟨tr', he⟩
        · cases hx
        · refine ⟨⟨i, view.head, view.version, hi, (hh.mono tr.le).mono o.le, hcomp,
            (clean.reads tr').others o⟩, he.imp id .inl⟩
  · -- it was answered as rejected
    obtain ⟨j, bytes, hdec, ans, only⟩ := h
    have hh₁ := hh.mono tr.le
    have clean₁ := clean.rejected tr.le hh₁ ans only
    have sends₁ := sends.sent tr.le hdec hres ans only
    have tried : u.Attempted t i := ⟨_, _, bytes, j, hh₁, ans.later (Nat.zero_le _)⟩
    refine Runs.bind hR gu (evidence_runs gu (load_runs le_rfl gu (pub.log.mono tr.le))) ?_
      fun e v _ _ h => absurd h.2 h.1
    rintro (_ | current) v tr' gv h
    · exact Runs.pure fun _ _ _ => trivial
    have load : Loaded t u.now current v := h
    obtain ⟨m, hm, hhm⟩ := load.head
    have hh₂ := hh₁.mono tr'.le
    have hilt : i < u.now := hh₁.lt
    have clean₂ : v.Clean t (i + 1) := clean₁.reads tr'
    have sends₂ : v.Sends t c := sends₁.reads tr'
    have load' := load.later (hL.trans tr.le.now)
    refine Runs.ite (fun hno => ?_) fun hyes => ?_
    · -- the base has changed, so the head is another one
      refine Runs.pure fun w o gw => ⟨load'.mono o.le, hno, m, hhm.mono o.le, ?_,
        sends₂.others o, i, _, _, hi, ?_, hh₂.mono o.le, hcomp, rfl⟩
      all_goals
        have hne : i ≠ m := by
          rintro rfl
          rw [(hh₂.unique hhm).1] at hcomp
          exact hno hcomp
      · exact (clean₂.le (by omega)).others o
      · omega
    refine Runs.ite (fun _ => Runs.pure fun _ _ _ => trivial) fun hne => ?_
    have hlt : i < m := by
      rcases Nat.lt_or_ge i m with hlt | hge
      · exact hlt
      · obtain rfl : m = i := by omega
        obtain ⟨e1, e2⟩ := hhm.unique hh₂
        exact absurd ⟨e1, e2⟩ hne
    refine Runs.ite (fun hgen => ?_) fun _ => ?_
    · -- generations number the heads
      have := UInt64.le_iff_toNat_le.1 hgen
      rw [gv.inv.generation hhm, gv.inv.generation hh₂] at this
      omega
    · exact next current v m (tr.le.trans tr'.le) gv load' hhm hlt (not_not.1 hyes)
        (clean₂.le (by omega)) sends₂ (tried.mono tr'.le)
  · obtain ⟨rfl, hnext, hview⟩ := h
    exact Runs.pure fun v o _ => ⟨i, _, _, hi, (hh.mono tr.le).mono o.le, hcomp, hnext.mono o.le,
      hres, hview.mono o.le o.le.now⟩

theorem PublicationOK.earlier {i n : Nat} {r : Except Error HeadPublication} (hi : i₀ ≤ i)
    (h : PublicationOK t L source compatible c i n r u) :
    PublicationOK t L source compatible c i₀ n r u := by
  rcases r with e | (next | ⟨current, generation⟩ | current | _)
  · obtain ⟨⟨m, hd, v, hm, hrest⟩, he⟩ := h
    exact ⟨⟨m, hd, v, by omega, hrest⟩, he⟩
  · obtain ⟨k, hd, v, hk, hrest⟩ := h
    exact ⟨k, hd, v, by omega, hrest⟩
  · obtain ⟨hl, hc, m, hm, hcl, hs, k, hd, v, hk, hrest⟩ := h
    exact ⟨hl, hc, m, hm, hcl, hs, k, hd, v, by omega, hrest⟩
  · obtain ⟨hl, hc, m, hm, hcl, hs, hL, is, hlen, hsort, hall⟩ := h
    exact ⟨hl, hc, m, hm, hcl, hs, hL, is, hlen, hsort, fun k hk => ⟨by have := (hall k hk).1; omega,
      (hall k hk).2⟩⟩
  · trivial

/-- One attempt more than the rest of the loop made, from a head that was loaded. -/
theorem PublicationOK.cons {i k n : Nat} {r : Except Error HeadPublication} (hn : 0 < n)
    (hik : i < k) (hk : L ≤ k + 1) (h : PublicationOK t L source compatible c k n r u)
    (tried : u.Attempted t i) : PublicationOK t L source compatible c i (n + 1) r u := by
  have he := h.earlier hik.le
  rcases r with e | (next | ⟨current, generation⟩ | current | _)
  · exact he
  · exact he
  · exact he
  · obtain ⟨hl, hc, m, hm, hcl, hs, -, is, hlen, hsort, hall⟩ := h
    obtain ⟨x, hx⟩ := List.exists_mem_of_length_pos (by omega : 0 < is.length)
    have hxm := hall x hx
    refine ⟨hl, hc, m, hm, hcl, hs, fun _ => by omega, i :: is, by simp [hlen], ?_, ?_⟩
    · exact List.pairwise_cons.2 ⟨fun j hj => lt_of_lt_of_le hik (hall j hj).1, hsort⟩
    · intro j hj
      rcases List.mem_cons.1 hj with rfl | hj
      · exact ⟨le_rfl, by omega, tried⟩
      · have := hall j hj
        exact ⟨by omega, this.2⟩
  · trivial

/-- **The publication loop.** -/
theorem publishAttempts_runs (hA : Updates ≤ A) (hcand : ∀ v : View, candidate v = c.apply v.head) :
    ∀ (further : Nat) (i : Nat) (view : View) (s : State), Good s → L ≤ s.now →
      Publishing s t log source compatible c i → s.HeadAt i view.head view.version →
      compatible source.head view.head = true → s.Clean t i → s.Sends t c →
      Runs t A (log.publishAttempts source candidate compatible further view)
        (PublicationOK t L source compatible c i (further + 1)) s
  | 0, i, view, s, g, hL, pub, hh, hcomp, clean, sends => by
      refine publishAttempt_runs hA g hL pub hcand hh le_rfl hcomp clean sends ?_
      intro current u m hle gu load hm hlt hc hclean hsends tried
      refine Runs.pure fun v o _ => ⟨load.mono o.le, hc, m, hm.mono o.le, hclean.others o,
        hsends.others o, by simp, [i], rfl, by simp, ?_⟩
      intro k hk
      obtain rfl := List.mem_singleton.1 hk
      exact ⟨le_rfl, hlt, tried.mono o.le⟩
  | further + 1, i, view, s, g, hL, pub, hh, hcomp, clean, sends => by
      refine publishAttempt_runs hA g hL pub hcand hh le_rfl hcomp clean sends ?_
      intro current u m hle gu load hm hlt hc hclean hsends tried
      refine (publishAttempts_runs hA hcand further m current u gu (hL.trans hle.now)
        ((pub.mono hle).later hlt.le) hm hc hclean hsends).track.mono ?_
      rintro r v gv ⟨tr, h⟩
      obtain ⟨m', hm', hhm'⟩ := load.head
      obtain rfl := gu.inv.head_unique hhm' hm
      exact h.cons (Nat.succ_pos _) hlt hm' (tried.mono tr.le)

end

end ObjectLog
