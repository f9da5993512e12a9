import ObjectLog.Proof.StoreOps

/-!
# Reading the head and the records of a view

A handle of the log finds its own durable head whenever the store answers, so loading can
only fail because the store or the guard refused. A read on behalf of a view either finds
what the view refers to or finds the view expired: the key it missed is in a plan of a
later epoch, and the load that follows sees that epoch.
-/

set_option linter.unusedSectionVars false

namespace ObjectLog

open Rely

variable [Blake3] {s s' u : State} {t : Nat} {A : Effect → Prop} {log : Log} {view : View}

/-! ## Handles and heads -/

theorem validateView_ok : log.validateView view = .ok () ↔ view.head.logId = log.logId ∧
    view.head.incarnation = log.incarnation ∧ view.head.options = log.options := by
  simp [Log.validateView, bind_ok]

/-- A handle agrees with every durable head. -/
theorem State.LogOK.head (hl : s.LogOK log) (inv : Inv s) {i : Nat} {h : Head}
    {v : UpdateVersion} (hh : s.HeadAt i h v) :
    h.logId = log.logId ∧ h.incarnation = log.incarnation ∧ h.options = log.options := by
  obtain ⟨hs, -, h₀, v₀, hh₀, hi, ho⟩ := hl
  obtain ⟨-, e2, e3⟩ := inv.identity hh₀ hh
  exact ⟨(inv.identity hh hh).1.trans hs.symm, e2.trans hi, e3.trans ho⟩

theorem State.LogOK.pos (hl : s.LogOK log) : 0 < s.now := by
  obtain ⟨-, -, _, _, hh, -⟩ := hl
  exact Nat.lt_of_le_of_lt (Nat.zero_le _) hh.lt

/-- A stored state of the head, decoded. -/
theorem State.ReadAt.head {L : Nat} {stored : StoredObject} (inv : Inv s)
    (h : s.ReadAt L stored) : ∃ i hd, L ≤ i + 1 ∧ s.HeadAt i hd stored.version ∧
      decodeHead stored.bytes = .ok hd ∧
      stored.bytes.length ≤ hd.options.maxHeadBytes.toNat := by
  obtain ⟨i, hi, hst⟩ := h
  obtain ⟨hd, hdec, hlen⟩ := inv.heads stored (List.mem_of_getElem? hst)
  exact ⟨i, hd, hi, ⟨stored.bytes, hst, hdec⟩, hdec, hlen⟩

/-- A handle and a view of its log. -/
structure Viewing (s : State) (log : Log) (view : View) : Prop where
  log : s.LogOK log
  view : s.ViewOK s.now view

theorem Viewing.mono (hle : s.Le s') (h : Viewing s log view) : Viewing s' log view :=
  ⟨h.log.mono hle, h.view.mono hle hle.now⟩

theorem Viewing.head (h : Viewing s log view) : ∃ i, s.HeadAt i view.head view.version := by
  obtain ⟨⟨i, -, hh⟩, -⟩ := h.view
  exact ⟨i, hh⟩

theorem Viewing.same (h : Viewing s log view) (inv : Inv s) : view.head.logId = log.logId ∧
    view.head.incarnation = log.incarnation ∧ view.head.options = log.options := by
  obtain ⟨i, hh⟩ := h.head
  exact h.log.head inv hh

theorem Viewing.checked (h : Viewing s log view) (inv : Inv s) : log.validateView view = .ok () :=
  validateView_ok.2 (h.same inv)

/-! ## Loading -/

/-- A view that call `t` has loaded, of a head that was durable at a moment not before `L`. -/
structure Loaded (t L : Nat) (view : View) (u : State) : Prop where
  head : ∃ i, L ≤ i + 1 ∧ u.HeadAt i view.head view.version
  observed : ∃ o, u.views[view.id]? = some o ∧ o.head = view.head ∧ o.version = view.version
  read : ∃ stored, u.Answered t .getHead L (some stored) ∧ stored.version = view.version ∧
    decodeHead stored.bytes = .ok view.head

theorem Loaded.mono {L : Nat} (hle : s.Le s') (h : Loaded t L view s) : Loaded t L view s' where
  head := by
    obtain ⟨i, hi, hh⟩ := h.head
    exact ⟨i, hi, hh.mono hle⟩
  observed := by
    obtain ⟨o, ho, e1, e2⟩ := h.observed
    obtain ⟨o', ho', e3, e4⟩ := hle.views _ o ho
    exact ⟨o', ho', e3.trans e1, e4.trans e2⟩
  read := by
    obtain ⟨stored, ha, hr⟩ := h.read
    exact ⟨stored, ha.mono hle, hr⟩

theorem Loaded.later {L L' : Nat} (hL : L' ≤ L) (h : Loaded t L view s) : Loaded t L' view s where
  head := by
    obtain ⟨i, hi, hh⟩ := h.head
    exact ⟨i, hL.trans hi, hh⟩
  observed := h.observed
  read := by
    obtain ⟨stored, ha, hr⟩ := h.read
    exact ⟨stored, ha.later hL, hr⟩

theorem Loaded.viewOK {L : Nat} (h : Loaded t L view s) : s.ViewOK s.now view := by
  obtain ⟨i, -, hh⟩ := h.head
  exact ⟨⟨i, hh.lt, hh⟩, h.observed⟩

theorem newView_runs (hA : Reads ≤ A) (g : Good s) {head : Head} {version : UpdateVersion}
    (hh : ∃ i, s.HeadAt i head version) :
    Runs t A (newView head version) (fun r u => ∃ id, r = .ok ⟨id, head, version⟩ ∧
      ∃ o, u.views[id]? = some o ∧ o.head = head ∧ o.version = version) s := by
  refine Runs.bind (P := fun r u => ∃ id, r = .ok id ∧ ∃ o, u.views[id]? = some o ∧
    o.head = head ∧ o.version = version) le_rfl g ?_ ?_ nofun
  · refine Runs.ask fun u o gu => ⟨⟨?_, hA _ trivial⟩, fun id v hx gv v' o' g' => ⟨id, rfl, ?_⟩⟩
    · obtain ⟨i, hh⟩ := hh
      exact ⟨i, hh.mono o.le⟩
    · obtain ⟨rfl, rfl⟩ := hx
      exact o'.le.views _ ⟨head, version, none, none⟩ (List.getElem?_concat_length ..)
  · rintro id u tr gu ⟨id', hid, o, ho, e1, e2⟩
    obtain rfl := Except.ok.inj hid
    refine Runs.pure fun v o' _ => ⟨id, rfl, ?_⟩
    obtain ⟨o'', ho'', e3, e4⟩ := o'.le.views _ o ho
    exact ⟨o'', ho'', e3.trans e1, e4.trans e2⟩

theorem headFromStored_ok {stored : StoredObject} {h : Head}
    (hd : decodeHead stored.bytes = .ok h) (he : h.logId = log.logId ∧
      h.incarnation = log.incarnation ∧ h.options = log.options) :
    log.headFromStored stored = .ok h := by
  simp [Log.headFromStored, bind_ok, hd, he, pure, Except.pure]

/-- A stored state of the head becomes a view. -/
theorem viewFromStored_runs {L : Nat} {stored : StoredObject} (hA : Reads ≤ A) (g : Good s)
    (hl : s.LogOK log) (hr : s.ReadAt L stored) :
    Runs t A (log.viewFromStored stored) (fun r u => ∃ view, r = .ok view ∧
      view.version = stored.version ∧ decodeHead stored.bytes = .ok view.head ∧
      (∃ i, L ≤ i + 1 ∧ u.HeadAt i view.head view.version) ∧
      ∃ o, u.views[view.id]? = some o ∧ o.head = view.head ∧ o.version = view.version) s := by
  obtain ⟨i, hd, hi, hh, hdec, -⟩ := hr.head g.inv
  refine Runs.liftBind (fun a ha => ?_) fun e u he _ _ => ?_
  · rw [headFromStored_ok hdec (hl.head g.inv hh)] at ha
    obtain rfl := Except.ok.inj ha
    refine (newView_runs hA g ⟨i, hh⟩).track.mono ?_
    rintro r u gu ⟨tr, id, rfl, ho⟩
    exact ⟨_, rfl, rfl, hdec, ⟨i, hi, hh.mono tr.le⟩, ho⟩
  · rw [headFromStored_ok hdec (hl.head g.inv hh)] at he
    cases he

/-- **Loading.** -/
theorem load_runs (hA : Reads ≤ A) (g : Good s) (hl : s.LogOK log) :
    Runs t A log.load (fun r u => match r with
      | .ok view => Loaded t s.now view u
      | .error e => e.Unavailable) s := by
  refine Runs.bind le_rfl g (readHead_runs hA g hl.pos _) ?_ ?_
  · rintro a u tr gu ⟨stored, rfl, hr, hans⟩
    refine (viewFromStored_runs hA gu (hl.mono tr.le) hr).track.mono ?_
    rintro r v gv ⟨tr', view, rfl, hver, hdec, hh, ho⟩
    exact ⟨hh, ho, stored, hans.mono tr'.le, hver.symm, hdec⟩
  · rintro e u tr gu (h | ⟨stored, hr, hlt⟩)
    · exact h
    · -- the stored head is never longer than its own limit
      obtain ⟨i, hd, -, hh, -, hlen⟩ := hr.head gu.inv
      rw [((hl.mono tr.le).head gu.inv hh).2.2] at hlen
      omega

/-- A refresh finds the view unchanged or a newer head. -/
theorem refresh_runs (hA : Reads ≤ A) (g : Good s) (hv : Viewing s log view) :
    Runs t A (log.refresh view) (fun r u => match r with
      | .ok none => ∃ i, s.now ≤ i + 1 ∧ u.HeadAt i view.head view.version
      | .ok (some next) => (∃ i, s.now ≤ i + 1 ∧ u.HeadAt i next.head next.version) ∧
          u.ViewOK u.now next
      | .error _ => True) s := by
  refine Runs.liftBind (fun _ _ => ?_) fun _ _ _ _ _ => trivial
  refine Runs.bind le_rfl g (readIfChanged_runs hA g hv.log.pos _ _) ?_ fun _ _ _ _ _ => trivial
  rintro (_ | stored | _) u tr gu h
  · -- the entity tag names one stored state
    obtain ⟨stored, eTag, hr, ht, hst⟩ := h
    obtain ⟨i, hd, hi, hh, -, -⟩ := hr.head gu.inv
    obtain ⟨j, hj⟩ := (hv.mono tr.le).head
    obtain ⟨rfl, rfl⟩ := gu.inv.version_unique hh hj (.inr ⟨by rw [ht]; rfl, hst.trans ht.symm⟩)
    exact Runs.pure fun v o _ => ⟨i, hi, hj.mono o.le⟩
  · refine Runs.bind le_rfl gu (viewFromStored_runs hA gu (hv.log.mono tr.le) h) ?_
      fun _ _ _ _ _ => trivial
    rintro next v tr' gv ⟨next', hn, -, -, ⟨i, hi, hh⟩, ho⟩
    obtain rfl := Except.ok.inj hn
    refine Runs.pure fun w o _ => ⟨⟨i, hi, hh.mono o.le⟩, ?_⟩
    exact State.ViewOK.mono (L := v.now) o.le o.le.now ⟨⟨i, hh.lt, hh⟩, ho⟩
  · exact h.elim

/-- A failure or refusal of the store settles nothing. -/
theorem evidence_runs {α : Type} {op : Op α} {P : Except Error α → State → Prop} (g : Good s)
    (h : Runs t A op P s) :
    Runs t A (publicationEvidence op) (fun r u => match r with
      | .ok (some a) => P (.ok a) u
      | .ok none => ∃ e, e.Unavailable ∧ P (.error e) u
      | .error e => ¬ e.Unavailable ∧ P (.error e) u) s := by
  refine Runs.attemptBind le_rfl g h.settle ?_
  rintro (e | a) u tr gu hP
  · cases e with
    | store x => exact Runs.pure fun v o gv => ⟨_, .inr ⟨x, rfl⟩, hP v o gv⟩
    | requestDenied => exact Runs.pure fun v o gv => ⟨_, .inl rfl, hP v o gv⟩
    | _ => exact Runs.throw fun v o gv => ⟨by simp [Error.Unavailable], hP v o gv⟩
  · exact Runs.pure fun v o gv => hP v o gv

/-! ## Expiry -/

/-- The collection epoch has moved past the view. -/
def State.Expired (s : State) (view : View) : Prop :=
  ∃ i h v, s.HeadAt i h v ∧ view.head.collectionEpoch.toNat < h.collectionEpoch.toNat

/-- The errors of a read of something the view refers to. -/
def State.ViewError (s : State) (view : View) (e : Error) : Prop :=
  e.Unavailable ∨ (e = .viewExpired ∧ s.Expired view)

theorem State.Expired.mono (hle : s.Le s') (h : s.Expired view) : s'.Expired view := by
  obtain ⟨i, hd, v, hh, he⟩ := h
  exact ⟨i, hd, v, hh.mono hle, he⟩

theorem State.ViewError.mono {e : Error} (hle : s.Le s') (h : s.ViewError view e) :
    s'.ViewError view e := h.imp id fun ⟨he, hx⟩ => ⟨he, hx.mono hle⟩

/-- A miss of something an older head reaches. -/
theorem State.Missed.expired {L i : Nat} {k : ImmutableKey} (h : s.Missed L k) (hi : i < L)
    (hh : s.HeadAt i view.head view.version) (hr : Reaches s.body view.head k) :
    s.Expired view := by
  obtain ⟨e, he, j, hd, v, hj, rfl, -⟩ := h.reached i _ _ hi hh hr
  exact ⟨j, hd, v, hj, he⟩

/-- `missing_read_error` tells an expired view. -/
theorem missingReadError_runs {α : Type} (hA : Reads ≤ A) (g : Good s) (hl : s.LogOK log) :
    Runs t A (log.missingReadError view : Op α) (fun r u => ∃ e, r = .error e ∧
      (s.Expired view → u.ViewError view e)) s := by
  refine Runs.bind le_rfl g (load_runs hA g hl) ?_ ?_
  · rintro current u tr gu h
    -- the load is not older than the miss
    have key : s.Expired view → view.head.collectionEpoch.toNat <
        current.head.collectionEpoch.toNat := by
      rintro ⟨j, hd, v, hj, he⟩
      obtain ⟨i, hi, hh⟩ := h.head
      have := gu.inv.epoch_mono (by have := hj.lt; omega) (hj.mono tr.le) hh
      omega
    split
    · refine Runs.throw fun v o _ => ⟨_, rfl, fun hx => .inr ⟨rfl, (hx.mono tr.le).mono o.le⟩⟩
    · rename_i hc
      refine Runs.throw fun v o _ => ⟨_, rfl, fun hx => ?_⟩
      have := key hx
      rw [Nat.compare_eq_eq] at hc
      omega
    · rename_i hc
      refine Runs.throw fun v o _ => ⟨_, rfl, fun hx => ?_⟩
      have := key hx
      rw [Nat.compare_eq_lt] at hc
      omega
  · rintro e u tr gu h
    exact ⟨e, rfl, fun _ => .inl h⟩

/-! ## Immutable objects -/

theorem verifyObject_ok {object : ObjectRef} {bytes : Bytes} :
    verifyObject object bytes = .ok () ↔ object.Counted ∧
      bytes.length = object.len.toNat ∧ Digest.of bytes = object.digest := by
  simp only [verifyObject, bind_ok, okOr_ok, ensure_ok]
  constructor
  · rintro ⟨⟨⟩, hc, len, hl, rfl, hd⟩
    exact ⟨hc, (toU64_toNat hl).symm, hd⟩
  · rintro ⟨hc, hl, hd⟩
    refine ⟨(), hc, object.len, ?_, rfl, hd⟩
    rw [hl, toU64_eq_some (UInt64.toNat_lt _), UInt64.ofNat_toNat]

/-- The bytes a reference asks for, and what finding them says. -/
def State.Found (s : State) (L : Nat) (log : Log) (object : ObjectRef) (bytes : Bytes) : Prop :=
  Matches s.body log.incarnation log.options object bytes ∧ s.Seen L (objectKey log.incarnation object)

theorem State.Found.mono {L : Nat} {object : ObjectRef} {bytes : Bytes} (hle : s.Le s')
    (hL : L ≤ s.now) (h : s.Found L log object bytes) : s'.Found L log object bytes :=
  ⟨h.1.mono hle.body, h.2.mono hle hL⟩

theorem readableLen_ok {object : ObjectRef} {n : Nat} :
    log.readableLen object = .ok n ↔
      object.len ≤ log.options.maxObjectBytes ∧ object.len.toNat = n := by
  simp [Log.readableLen, bind_ok, pure, Except.pure]

/-- A read of an object. With a complete graph behind the reference it can only fail
because the store or the guard refused. -/
theorem readImmutableOptional_runs (hA : Reads ≤ A) (g : Good s) (object : ObjectRef) :
    Runs t A (log.readImmutableOptional object) (fun r u => match r with
      | .ok (some bytes) => u.Found s.now log object bytes
      | .ok none => u.Lacks t s.now (objectKey log.incarnation object)
      | .error e => (∃ bytes, Matches s.body log.incarnation log.options object bytes) →
          e.Unavailable) s := by
  refine Runs.liftBind (fun n hn => ?_) ?_
  · obtain ⟨hfit, rfl⟩ := readableLen_ok.1 hn
    refine Runs.bind le_rfl g (readKey_runs hA g _ _) ?_ ?_
    · rintro (_ | bytes) u tr gu h
      · exact Runs.pure fun v o _ => h.mono o.le tr.le.now gu.inv
      · obtain ⟨hb, hseen, -⟩ := h
        refine Runs.liftBind (fun _ hok => ?_) ?_
        · obtain ⟨hc, hl, hd⟩ := verifyObject_ok.1 hok
          exact Runs.pure fun v o _ =>
            State.Found.mono o.le tr.le.now ⟨⟨hb, hd, hl, hc, hfit⟩, hseen⟩
        · rintro e v he - - ⟨bytes', m⟩
          obtain rfl := Option.some.inj ((tr.le.body _ _ m.stored).symm.trans hb)
          rw [verifyObject_ok.2 ⟨m.counted, m.len, m.digest⟩] at he
          cases he
    · rintro e u tr gu (h | ⟨-, bytes, hb, hlt⟩) ⟨bytes', m⟩
      · exact h
      · obtain rfl := Option.some.inj ((tr.le.body _ _ m.stored).symm.trans hb)
        rw [m.len] at hlt
        omega
  · rintro e u he - - ⟨bytes, m⟩
    rw [readableLen_ok.2 ⟨m.fits, rfl⟩] at he
    cases he

/-- A read of an object on behalf of a view. -/
theorem readImmutableForView_runs (hA : Reads ≤ A) (g : Good s) (hv : Viewing s log view)
    (object : ObjectRef) :
    Runs t A (log.readImmutableForView view object) (fun r u => match r with
      | .ok bytes => u.Found s.now log object bytes
      | .error e => (∃ bytes, Matches s.body log.incarnation log.options object bytes) →
          Reaches s.body view.head (objectKey log.incarnation object) →
          u.ViewError view e) s := by
  refine Runs.bind le_rfl g (readImmutableOptional_runs hA g object) ?_ ?_
  · rintro (_ | bytes) u tr gu h
    · refine (missingReadError_runs hA gu (hv.log.mono tr.le)).mono ?_
      rintro r v gv ⟨e, rfl, he⟩ - hr
      obtain ⟨⟨i, hi, hh⟩, -⟩ := hv.view
      exact he (h.missed.expired hi (hh.mono tr.le) (hr.mono tr.le.body))
    · exact Runs.pure fun v o _ => h.mono o.le tr.le.now
  · rintro e u tr gu h hm -
    exact .inl (h hm)

/-- The errors of a reader that did not find an object. -/
def Error.Missing (e : Error) : Prop :=
  e = .viewExpired ∨ e = invalid "a referenced object is missing" ∨
    e = invalid "a referenced commit is missing" ∨ e = invalid "an immutable object is missing"

theorem readImmutable_runs (hA : Reads ≤ A) (g : Good s) (object : ObjectRef) :
    Runs t A (log.readImmutable object) (fun r u => match r with
      | .ok bytes => u.Found s.now log object bytes
      | .error e => (∃ bytes, Matches s.body log.incarnation log.options object bytes) →
          e.Unavailable ∨ (e.Missing ∧ u.Lacks t s.now (objectKey log.incarnation object))) s := by
  refine Runs.bind le_rfl g (readImmutableOptional_runs hA g object) ?_
    fun e u _ _ h hm => .inl (h hm)
  rintro (_ | bytes) u tr gu h
  · exact Runs.throw fun v o _ _ => .inr ⟨.inr (.inl rfl), h.mono o.le tr.le.now gu.inv⟩
  · exact Runs.pure fun v o _ => h.mono o.le tr.le.now

/-- A reference in the graph of the view matches what is stored. -/
theorem Inside.matches {object : ObjectRef} (g : Good s) (hv : Viewing s log view)
    (hi : Inside s.body view.head object) :
    (∃ bytes, Matches s.body log.incarnation log.options object bytes) ∧
      Reaches s.body view.head (objectKey log.incarnation object) := by
  obtain ⟨i, hh⟩ := hv.head
  obtain ⟨-, e2, e3⟩ := hv.same g.inv
  rw [← e2, ← e3]
  exact ⟨(hi.stored (g.inv.headStored hh)).matches, hi.reaches⟩

theorem readObject_runs (hA : Reads ≤ A) (g : Good s) (hv : Viewing s log view)
    (object : ObjectRef) :
    Runs t A (log.readObject view object) (fun r u => match r with
      | .ok bytes => object.kind = .blob ∧ u.Found s.now log object bytes
      | .error e => Inside s.body view.head object → object.kind = .blob → u.ViewError view e) s := by
  refine Runs.liftBind (fun _ _ => ?_) fun e _ he _ _ => ?_
  · refine Runs.ite (fun hk => Runs.throw fun _ _ _ _ hk' => absurd hk' hk) fun hk => ?_
    refine (readImmutableForView_runs hA g hv object).mono ?_
    rintro (e | bytes) u gu h
    · exact fun hi _ => h (hi.matches g hv).1 (hi.matches g hv).2
    · exact ⟨not_not.1 hk, h⟩
  · rw [hv.checked g.inv] at he
    cases he

theorem decodeNodeReference_ok {object : ObjectRef} {bytes : Bytes} {node : Node} :
    log.decodeNodeReference object bytes = .ok node ↔ decodeNode bytes log.options = .ok node ∧
      subtreeObjects node.children = .ok object.subtreeObjects := by
  simp only [Log.decodeNodeReference, bind_ok, ensure_ok, pure, Except.pure, Except.ok.injEq,
    exists_const]
  constructor
  · rintro ⟨n, hn, c, hc, rfl, rfl⟩
    exact ⟨hn, hc⟩
  · rintro ⟨hn, hc⟩
    exact ⟨node, hn, _, hc, rfl, rfl⟩

/-- A node that was read and decoded. -/
def State.NodeFound (s : State) (L : Nat) (log : Log) (object : ObjectRef) (node : Node) : Prop :=
  object.kind = .node ∧ ∃ bytes, s.Found L log object bytes ∧
    decodeNode bytes log.options = .ok node ∧
    subtreeObjects node.children = .ok object.subtreeObjects

theorem readNode_runs (hA : Reads ≤ A) (g : Good s) (hv : Viewing s log view)
    (object : ObjectRef) :
    Runs t A (log.readNode view object) (fun r u => match r with
      | .ok node => u.NodeFound s.now log object node
      | .error e => Inside s.body view.head object → object.kind = .node → u.ViewError view e) s := by
  refine Runs.liftBind (fun _ _ => ?_) fun e _ he _ _ => ?_
  · refine Runs.ite (fun hk => Runs.throw fun _ _ _ _ hk' => absurd hk' hk) fun hk => ?_
    refine Runs.bind le_rfl g (readImmutableForView_runs hA g hv object) ?_ ?_
    · rintro bytes u tr gu h
      refine Runs.lift fun v o gv => ?_
      cases hd : log.decodeNodeReference object bytes with
      | ok node =>
          obtain ⟨h1, h2⟩ := decodeNodeReference_ok.1 hd
          exact ⟨not_not.1 hk, bytes, h.mono o.le tr.le.now, h1, h2⟩
      | error e =>
          intro hi hk'
          -- what is stored under a reference of the graph decodes
          obtain ⟨i, hh⟩ := hv.head
          obtain ⟨-, e2, e3⟩ := hv.same g.inv
          have hst := hi.stored (g.inv.headStored hh)
          rw [e2, e3] at hst
          cases hst with
          | blob kind _ => rw [hk'] at kind; cases kind
          | node _ m hdec hsub _ =>
              obtain rfl := Option.some.inj ((tr.le.body _ _ m.stored).symm.trans h.1.stored)
              rw [decodeNodeReference_ok.2 ⟨hdec, hsub⟩] at hd
              cases hd
    · exact fun e u tr gu h hi _ => h (hi.matches g hv).1 (hi.matches g hv).2
  · rw [hv.checked g.inv] at he
    cases he

end ObjectLog
