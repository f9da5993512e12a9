import ObjectLog.Proof.CommitOps

/-!
# Opening, history cursors, byte streams
-/

set_option linter.unusedSectionVars false

namespace ObjectLog

open Rely

variable [Blake3] {s s' u : State} {t : Nat} {A : Effect → Prop} {log : Log} {view : View}
  {logId : LogId} {options : Options} {e : Error} {cursor : HistoryCursor}

/-! ## Opening -/

/-- What a read of the head finds before anything is known of the log. -/
theorem readHead_found (hA : Reads ≤ A) (g : Good s) (maxBytes : Nat) :
    Runs t A (readHead maxBytes) (fun r u => ∀ stored, r = .ok (some stored) →
      ∃ i h, u.HeadAt i h stored.version ∧ decodeHead stored.bytes = .ok h) s := by
  have hr : Reads (.submit .getHead) := trivial
  refine (retrySafeRead_runs hA hr g maxBytes).mono ?_
  rintro r u gu h stored rfl
  obtain ⟨ans, ⟨j, hans⟩, hcol⟩ := h
  cases ans with
  | none => cases hcol
  | some st =>
      obtain ⟨bytes, hbytes, heq⟩ := bind_ok.1 hcol
      obtain ⟨-, rfl⟩ := collectObject_ok.1 hbytes
      obtain rfl := Option.some.inj (Except.ok.inj heq)
      rcases State.Answered.ok gu.inv ⟨j, hans⟩ with ⟨sent, n, -, -, hok⟩ | hr
      · obtain ⟨i, hd, -, hh, hdec, -⟩ := State.ReadAt.head gu.inv hok
        exact ⟨i, hd, hh, hdec⟩
      · exact hr.elim

theorem openedHead_ok {stored : StoredObject} {h : Head}
    (ho : openedHead logId options stored = .ok h) :
    decodeHead stored.bytes = .ok h ∧ h.logId = logId ∧ h.options = options := by
  simp only [openedHead, bind_ok, ensure_ok, pure, Except.pure, Except.ok.injEq] at ho
  obtain ⟨h', hd, ⟨⟩, h1, ⟨⟩, h2, rfl⟩ := ho
  exact ⟨hd, h1, h2⟩

/-- The incarnation that a handle is opened with is that of the log. -/
def State.IncarnationOK (s : State) (options : Options) (incarnation : Uuid) : Prop :=
  ∃ h v, s.HeadAt 0 h v ∧ h.incarnation = incarnation ∧ h.options = options

theorem State.IncarnationOK.mono {inc : Uuid} (hle : s.Le s') (h : s.IncarnationOK options inc) :
    s'.IncarnationOK options inc := by
  obtain ⟨hd, v, hh, hrest⟩ := h
  exact ⟨hd, v, hh.mono hle, hrest⟩

theorem Inv.incarnationOK {i : Nat} {h : Head} {v : UpdateVersion} (inv : Inv s)
    (hh : s.HeadAt i h v) (ho : h.options = options) : s.IncarnationOK options h.incarnation := by
  obtain ⟨h₀, v₀, hh₀⟩ := inv.headAt (i := 0) (by have := hh.lt; omega)
  obtain ⟨-, e2, e3⟩ := inv.identity hh hh₀
  exact ⟨h₀, v₀, hh₀, e2, e3.trans ho⟩

/-- A stored head that passes the checks of `open`. -/
theorem openedHead_runs {stored : StoredObject} {i : Nat} {h : Head}
    (g : Good s) (hh : s.HeadAt i h stored.version) (hd : decodeHead stored.bytes = .ok h) :
    Runs t A (do return (← Prog.lift (openedHead logId options stored)).incarnation)
      (fun r u => match r with
        | .ok inc => u.IncarnationOK options inc
        | .error _ => True) s := by
  refine Runs.liftBind (fun h' hok => ?_) fun _ _ _ _ _ => trivial
  obtain ⟨hd', -, ho⟩ := openedHead_ok hok
  obtain rfl := Except.ok.inj (hd.symm.trans hd')
  exact Runs.pure fun v o _ => (g.inv.incarnationOK hh ho).mono o.le

theorem loadExistingHead_runs (hA : Reads ≤ A) (g : Good s) :
    Runs t A (loadExistingHead logId options) (fun r u => match r with
      | .ok (head, version) => (∃ i, u.HeadAt i head version) ∧ head.logId = logId ∧
          head.options = options
      | .error _ => True) s := by
  refine Runs.bind le_rfl g (readHead_found hA g _) ?_ fun _ _ _ _ _ => trivial
  rintro (_ | stored) u tr gu h
  · exact Runs.throw fun _ _ _ => trivial
  obtain ⟨i, hd, hh, hdec⟩ := h stored rfl
  refine Runs.liftBind (fun h' hok => ?_) fun _ _ _ _ _ => trivial
  obtain ⟨hdec', h1, h2⟩ := openedHead_ok hok
  obtain rfl := Except.ok.inj (hdec.symm.trans hdec')
  exact Runs.pure fun v o _ => ⟨⟨i, hh.mono o.le⟩, h1, h2⟩

theorem newUuid_runs (hA : Reads ≤ A) : Runs t A newUuid (fun r _ => ∃ x, r = .ok x) s :=
  Runs.ask fun _ _ _ => ⟨⟨trivial, hA _ trivial⟩, fun x _ _ _ _ _ _ => ⟨x, rfl⟩⟩

theorem openIncarnation_runs (g : Good s) (hscope : logId = s.scope) :
    Runs t Anything (openIncarnation logId options) (fun r u => match r with
      | .ok inc => u.IncarnationOK options inc
      | .error _ => True) s := by
  refine Runs.bind (A := Reads) le_anything g (readHead_found le_rfl g _) ?_
    fun _ _ _ _ _ => trivial
  rintro (_ | stored) u tr gu h
  swap
  · obtain ⟨i, hd, hh, hdec⟩ := h stored rfl
    exact openedHead_runs gu hh hdec
  refine Runs.bind (A := Reads) le_anything gu (newUuid_runs le_rfl) ?_ nofun
  rintro inc v tr₁ gv -
  refine Runs.liftBind (fun bytes hbytes => ?_) fun _ _ _ _ _ => trivial
  refine Runs.liftBind (fun _ hsize => ?_) fun _ _ _ _ _ => trivial
  have hfits : bytes.length ≤ options.maxHeadBytes.toNat := ensure_ok.1 hsize
  have hdec : decodeHead bytes = .ok (Head.empty logId inc options) :=
    decodeHead_encodeHead hbytes nofun (lt_of_le_of_lt hfits (UInt64.toNat_lt _))
  refine Runs.attemptBind le_rfl gv (createHead_runs le_anything trivial gv fun w tr' _ => ?_) ?_
  · rw [hscope, ← ((tr.le.trans tr₁.le).trans tr'.le).scope] at hbytes
    exact ⟨⟨inc, options, hbytes, hfits⟩, trivial⟩
  rintro (error | created) w tr₂ gw h
  · refine Runs.bind (A := Reads) le_anything gw (readHead_found le_rfl gw _) ?_
      fun _ _ _ _ _ => trivial
    rintro (_ | stored) x tr₃ gx hx
    · exact Runs.throw fun _ _ _ => trivial
    · obtain ⟨i, hd, hh, hdec'⟩ := hx stored rfl
      exact openedHead_runs gx hh hdec'
  · cases created with
    | true =>
        rcases h with ⟨_, he⟩ | ⟨c, hc, hfirst⟩
        · cases he
        obtain rfl := Except.ok.inj hc
        obtain ⟨version, hlog⟩ := hfirst rfl
        have hh : w.HeadAt 0 (Head.empty logId inc options) version := ⟨bytes, hlog, hdec⟩
        exact Runs.pure fun x o _ => ⟨_, version, hh.mono o.le, rfl, rfl⟩
    | false =>
        refine Runs.bind (A := Reads) le_anything gw (loadExistingHead_runs le_rfl gw) ?_
          fun _ _ _ _ _ => trivial
        rintro ⟨head, version⟩ x tr₃ gx ⟨⟨i, hh⟩, -, ho⟩
        exact Runs.pure fun y o _ => (gx.inv.incarnationOK hh ho).mono o.le

/-- **A handle knows its log.** -/
theorem open_runs (g : Good s) (hscope : logId = s.scope) :
    Runs t Anything (Log.open logId options) (fun r u => match r with
      | .ok log => u.LogOK log
      | .error _ => True) s := by
  refine Runs.bind le_rfl g (openIncarnation_runs g hscope) ?_ fun _ _ _ _ _ => trivial
  intro inc u tr gu hinc
  refine Runs.bind (A := Reads) le_anything gu (newStagingDomain_runs le_rfl) ?_ nofun
  rintro d v tr' gv ⟨d', hd', -, hlt⟩
  obtain rfl := Except.ok.inj hd'
  refine Runs.pure fun w o _ => ⟨?_, lt_of_lt_of_le hlt o.le.domains, ?_⟩
  · rw [hscope]
    exact (((tr.le.trans tr'.le).trans o.le).scope).symm
  · exact State.IncarnationOK.mono (tr'.le.trans o.le) hinc

theorem openExistingWithView_runs (g : Good s) (hscope : logId = s.scope) :
    Runs t Anything (Log.openExistingWithView logId options) (fun r u => match r with
      | .ok (log, view) => u.LogOK log ∧ u.ViewOK u.now view
      | .error _ => True) s := by
  refine Runs.bind (A := Reads) le_anything g (loadExistingHead_runs le_rfl g) ?_
    fun _ _ _ _ _ => trivial
  rintro ⟨head, version⟩ u tr gu ⟨⟨i, hh⟩, -, ho⟩
  refine Runs.bind (A := Reads) le_anything gu (newStagingDomain_runs le_rfl) ?_ nofun
  rintro d v tr' gv ⟨d', hd', -, hlt⟩
  obtain rfl := Except.ok.inj hd'
  have hh' := hh.mono tr'.le
  refine Runs.bind (A := Reads) le_anything gv (newView_runs le_rfl gv ⟨i, hh'⟩) ?_ nofun
  rintro view w tr₂ gw ⟨id, hid, hobs⟩
  obtain rfl := Except.ok.inj hid
  have hhw := hh'.mono tr₂.le
  refine Runs.pure fun x o _ => ⟨⟨?_, lt_of_lt_of_le hlt (tr₂.le.trans o.le).domains, ?_⟩, ?_⟩
  · rw [hscope]
    exact ((((tr.le.trans tr'.le).trans tr₂.le).trans o.le).scope).symm
  · exact (gw.inv.incarnationOK hhw ho).mono o.le
  · exact State.ViewOK.mono (L := w.now) o.le o.le.now ⟨⟨i, hhw.lt, hhw⟩, hobs⟩

/-! ## History cursors -/

/-- **What a step of a cursor stands on.** -/
def State.HistoryOK (s : State) (view : View) :
    HistoryCursor × Except Error (Option HistoryItem) → Prop
  | (cursor, .ok (some (.checkpoint item))) => s.CursorOK s.now cursor ∧
      ∀ st ∈ item.proofs, s.StagedOK st
  | (cursor, .ok (some (.commit item))) => s.CursorOK s.now cursor ∧
      ∀ st ∈ item.proofs, s.StagedOK st
  | (cursor, .ok none) => s.CursorOK s.now cursor
  | (cursor, .error e) => s.CursorOK s.now cursor ∧ s.ViewError view e

theorem State.CursorOK.viewing {L : Nat} (h : s.CursorOK L cursor) (hL : L ≤ s.now) :
    Viewing s cursor.log cursor.view := ⟨h.log, h.view.mono (.refl s) hL⟩

/-- A cursor that keeps its log and its view. -/
theorem State.CursorOK.with {L : Nat} {c : HistoryCursor} (h : s.CursorOK L cursor)
    (hl : c.log = cursor.log) (hv : c.view = cursor.view)
    (hready : ∀ (j : Nat) r, c.ready[j]? = some r → s.ReadyOK c.view (c.nextCommit + j) r) :
    s.CursorOK L c :=
  ⟨hl ▸ h.log, hv ▸ h.view, hl ▸ hv ▸ h.checked, hready⟩

theorem commitReadWindow_pos (cap : Nat) (h : 0 < cap) : 0 < log.commitReadWindow cap := by
  unfold Log.commitReadWindow
  omega

/-- The read-ahead of a cursor. -/
theorem fetch_runs (hA : Reads ≤ A) (g : Good s) (hc : s.CursorOK s.now cursor)
    (hmore : cursor.nextCommit < cursor.view.head.tail.length) :
    Runs t A cursor.fetch (fun r u => ∃ ready, r = .ok ready ∧ ready ≠ [] ∧
      ∀ (j : Nat) x, ready[j]? = some x → u.ReadyOK cursor.view (cursor.nextCommit + j) x) s := by
  have hv := hc.viewing le_rfl
  have hmem : ∀ c ∈ (cursor.view.head.tail.drop cursor.nextCommit).take
      (cursor.log.commitReadWindow readAheadWindow), c ∈ cursor.view.head.tail :=
    fun c h => List.mem_of_mem_drop (List.mem_of_mem_take h)
  refine Runs.bind le_rfl g (Runs.mapM
    (R := fun c x u => u.CommitStarted t s.now cursor.log c x)
    (fun _ _ _ _ _ hle h => h.mono hle) _ s g fun c hcm u hle gu =>
      startCommit_runs hA gu (hv.mono hle) hle.now (hmem c hcm)) ?_ nofun
  rintro started u tr gu ⟨started', hst', hall⟩
  obtain rfl := Except.ok.inj hst'
  set references := (cursor.view.head.tail.drop cursor.nextCommit).take
    (cursor.log.commitReadWindow readAheadWindow) with href
  -- every started read belongs to its place in the tail
  have place : ∀ x ∈ (references.zip started).zipIdx,
      cursor.view.head.tail[cursor.nextCommit + x.2]? = some x.1.1 ∧
        u.CommitStarted t s.now cursor.log x.1.1 x.1.2 := by
    intro x hx
    obtain ⟨h1, h2⟩ := List.getElem?_zip_eq_some.1 (List.mem_zipIdx_iff_getElem?.1 hx)
    refine ⟨?_, ?_⟩
    · rw [href, List.getElem?_take] at h1
      split at h1
      · rwa [List.getElem?_drop] at h1
      · cases h1
    · obtain ⟨c, hc', hstarted⟩ := forall₂_getElem? hall h2
      obtain rfl := Option.some.inj (h1.symm.trans hc')
      exact hstarted
  refine (Runs.mapM (R := fun x y v => v.ReadyOK cursor.view (cursor.nextCommit + x.2) y)
    (fun x y v w _ hle h => State.ReadyOK.mono hle h) _ u gu ?_).mono ?_
  · intro x hx v hle gv
    obtain ⟨hk, hstarted⟩ := place x hx
    refine Runs.attempt ((finishTailRecord_runs hA gv (hv.mono (tr.le.trans hle))
      (hv.before.mono (tr.le.trans hle)) hk (hstarted.mono hle)).mono ?_)
    rintro (e | (_ | record)) w _ h
    · exact ⟨_, rfl, h⟩
    · exact ⟨_, rfl, h⟩
    · exact ⟨_, rfl, _, hk, h⟩
  · rintro r v gv ⟨ready, rfl, hready⟩
    refine ⟨ready, rfl, ?_, fun j x hx => ?_⟩
    · intro hnil
      rw [hnil] at hready
      have hlen := hready.length_eq
      have hlen₁ := hall.length_eq
      have hpos : 0 < cursor.log.commitReadWindow readAheadWindow :=
        commitReadWindow_pos readAheadWindow (by decide)
      simp only [List.length_zipIdx, List.length_zip, List.length_nil, href, List.length_take,
        List.length_drop] at hlen hlen₁
      omega
    · obtain ⟨y, hy, hok⟩ := forall₂_getElem? hready hx
      have hidx : y.2 = j := by
        rw [List.getElem?_zipIdx] at hy
        obtain ⟨z, -, rfl⟩ := Option.map_eq_some_iff.1 hy
        simp
      rw [hidx] at hok
      exact hok

theorem take_runs (hA : Reads ≤ A) (g : Good s) (hc : s.CursorOK s.now cursor)
    (hready : cursor.ready ≠ []) :
    Runs t A cursor.take (fun r u => ∃ out, r = .ok out ∧ u.HistoryOK cursor.view out) s := by
  have hv := hc.viewing le_rfl
  unfold HistoryCursor.take
  cases hr : cursor.ready with
  | nil => exact absurd hr hready
  | cons x ready =>
      have hx := hc.ready 0 x (by rw [hr]; rfl)
      have hempty : ∀ u, s.Le u → u.CursorOK u.now { cursor with ready := [] } := fun u hle =>
        (State.CursorOK.mono hle hle.now hc).with rfl rfl fun j r h => by simp at h
      rcases x with e | (_ | record)
      · exact Runs.pure fun u o _ => ⟨_, rfl, hempty u o.le, .inl hx⟩
      · -- the record was missing, so the epoch has moved on
        refine Runs.bind (P := fun r u => ∃ e, r = .ok (.error e) ∧ u.ViewError cursor.view e)
          le_rfl g ?_ ?_ nofun
        · refine Runs.attempt ((missingReadError_runs hA g hv.log).mono ?_)
          rintro r u _ ⟨e, rfl, he⟩
          exact ⟨e, rfl, he hx⟩
        · rintro result u tr gu ⟨e, he, herr⟩
          obtain rfl := Except.ok.inj he
          exact Runs.pure fun v o _ => ⟨_, rfl, hempty v (tr.le.trans o.le), herr.mono o.le⟩
      · obtain ⟨c, htail, hrec⟩ := hx
        have hstaged := hrec.staged g.inv hv (List.mem_of_getElem? htail)
        refine Runs.pure fun u o _ => ⟨_, rfl, ?_, fun st hst => (hstaged st hst).mono o.le⟩
        refine (State.CursorOK.mono o.le o.le.now hc).with rfl rfl fun j r h => ?_
        have := hc.ready (j + 1) r (by rw [hr]; exact h)
        rw [show cursor.nextCommit + (j + 1) = cursor.nextCommit + 1 + j by omega] at this
        exact State.ReadyOK.mono o.le this

theorem nextRecord_runs (hA : Reads ≤ A) (g : Good s) (hc : s.CursorOK s.now cursor) :
    Runs t A cursor.nextRecord (fun r u => ∃ out, r = .ok out ∧ u.HistoryOK cursor.view out) s := by
  refine Runs.ite (fun hmore => ?_) fun _ => ?_
  · refine Runs.ite (fun _ => ?_) fun hready => take_runs hA g hc hready
    refine Runs.bind le_rfl g (fetch_runs hA g hc hmore) ?_ nofun
    rintro ready u tr gu ⟨ready', hr, hne, hall⟩
    obtain rfl := Except.ok.inj hr
    exact take_runs hA gu ((State.CursorOK.mono tr.le tr.le.now hc).with rfl rfl hall) hne
  · refine Runs.bind le_rfl g (rememberTail_runs hA) ?_ nofun
    intro _ u tr _ _
    exact Runs.pure fun v o _ => ⟨_, rfl,
      (State.CursorOK.mono (tr.le.trans o.le) (tr.le.trans o.le).now hc).with rfl rfl
        fun j r h => State.ReadyOK.mono (tr.le.trans o.le) (hc.ready j r h)⟩

theorem next_runs (hA : Reads ≤ A) (g : Good s) (hc : s.CursorOK s.now cursor) :
    Runs t A cursor.next (fun r u => ∃ out, r = .ok out ∧ u.HistoryOK cursor.view out) s := by
  have hv := hc.viewing le_rfl
  have keep : ∀ u, s.Le u → ∀ c : HistoryCursor, c.log = cursor.log → c.view = cursor.view →
      c.ready = cursor.ready → c.nextCommit = cursor.nextCommit → u.CursorOK u.now c := by
    intro u hle c h1 h2 h3 h4
    refine (State.CursorOK.mono hle hle.now hc).with h1 h2 fun j r h => ?_
    rw [h2, h4]
    rw [h3] at h
    exact State.ReadyOK.mono hle (hc.ready j r h)
  refine Runs.ite (fun _ => Runs.pure fun u o _ => ⟨_, rfl, keep u o.le _ rfl rfl rfl rfl⟩)
    fun _ => ?_
  refine Runs.ite (fun _ => nextRecord_runs hA g hc) fun _ => ?_
  refine Runs.attemptBind le_rfl g (readCheckpoint_runs hA g hv) ?_
  rintro (e | (_ | record)) u tr gu h
  · exact Runs.pure fun v o _ => ⟨_, rfl, keep v (tr.le.trans o.le) _ rfl rfl rfl rfl,
      State.ViewError.mono o.le h⟩
  · exact nextRecord_runs hA gu (keep u tr.le _ rfl rfl rfl rfl)
  · obtain ⟨c, ck, hck, hbody, rfl⟩ := h
    have hstaged := checkpoint_staged gu.inv (hv.mono tr.le) hck hbody
    exact Runs.pure fun v o _ => ⟨_, rfl, keep v (tr.le.trans o.le) _ rfl rfl rfl rfl,
      fun st hst => (hstaged st hst).mono o.le⟩

/-! ## Byte streams -/

theorem byteStream_ok {node : Node} {len chunkBytes : Nat}
    (h : log.byteStream node = .ok (len, chunkBytes)) : ∀ c ∈ node.children, c.kind = .blob := by
  simp only [Log.byteStream, bind_ok, ensure_ok, exists_const] at h
  obtain ⟨-, -, hall, -⟩ := h
  intro c hc
  obtain ⟨i, hi⟩ := List.getElem?_of_mem hc
  exact (hall (c, i) (List.mem_zipIdx_iff_getElem?.2 hi)).1

/-- How opening a stream can fail when its root is in the graph of the view. The last two
say that the root, which is there, is not a stream that this handle reads. -/
def State.StreamError (s : State) (log : Log) (view : View) (root : ObjectRef) (e : Error) : Prop :=
  s.ViewError view e ∨
  (root.kind = .blob ∧ min log.options.maxObjectBytes.toNat maxChunkBytes < root.len.toNat ∧
    e = .limitExceeded "byte stream chunk bytes") ∨
  (root.kind = .node ∧ e = invalidByteStream ∧ ∃ bytes node,
    s.body (objectKey log.incarnation root) = some bytes ∧
    decodeNode bytes log.options = .ok node ∧ log.byteStream node = .error e)

theorem byteStream_error {node : Node} (h : log.byteStream node = .error e) :
    e = invalidByteStream := by
  rcases bind_error.1 h with hx | ⟨_, _, hx⟩
  · exact ensure_error hx
  rcases bind_error.1 hx with hx | ⟨_, _, hx⟩
  · exact ensure_error hx
  rcases bind_error.1 hx with hx | ⟨_, _, hx⟩
  · exact ensure_error hx
  · cases hx

theorem openBytes_runs {root : ObjectRef} (hA : Reads ≤ A) (g : Good s) (hv : Viewing s log view) :
    Runs t A (log.openBytes view root) (fun r u => match r with
      | .ok reader => u.LogOK reader.log ∧ u.ViewOK u.now reader.view ∧ reader.view = view ∧
          ∀ c ∈ reader.children, c.kind = .blob
      | .error e => Inside s.body view.head root → u.StreamError log view root e) s := by
  have hinside : Inside s.body view.head root → root.Counted := by
    intro hin
    obtain ⟨i, hh⟩ := hv.head
    exact (hin.stored (g.inv.headStored hh)).matches.choose_spec.counted
  refine Runs.ite (fun hblob => ?_) fun hnode => ?_
  · refine Runs.liftBind (fun _ _ => ?_) fun e u he _ _ => by rw [hv.checked g.inv] at he; cases he
    refine Runs.liftBind (fun _ _ => ?_) fun e u he _ _ hin => ?_
    swap
    · rw [show root.validateCount = .ok () from hinside hin] at he
      cases he
    refine Runs.ite (fun hlen => Runs.throw fun _ _ _ _ => .inr (.inl ⟨hblob, hlen, rfl⟩))
      fun _ => ?_
    refine Runs.bind le_rfl g (readObject_runs hA g hv root) ?_
      fun e u _ _ h hin => .inl (h hin hblob)
    intro bytes u tr _ _
    refine Runs.pure fun v o _ => ⟨hv.log.mono (tr.le.trans o.le),
      (hv.mono (tr.le.trans o.le)).view, rfl, fun c hc => ?_⟩
    obtain rfl := List.mem_singleton.1 hc
    exact hblob
  · refine Runs.bind le_rfl g (readNode_runs hA g hv root) ?_ fun e u _ gu h hin => ?_
    swap
    · obtain ⟨i, hh⟩ := hv.head
      have hne := (hin.stored (g.inv.headStored hh)).kind_ne
      have hkind : root.kind = .node := by
        cases hk : root.kind with
        | blob => exact absurd hk hnode
        | node => rfl
        | checkpoint => exact absurd hk hne
      exact .inl (h hin hkind)
    rintro node u tr gu ⟨hkind, bytes, hf, hd, -⟩
    refine Runs.liftBind (fun x hx => ?_) fun e v he o _ _ => .inr (.inr ⟨hkind,
      byteStream_error he, bytes, node, o.le.body _ _ hf.1.stored, hd, he⟩)
    exact Runs.pure fun v o _ => ⟨hv.log.mono (tr.le.trans o.le),
      (hv.mono (tr.le.trans o.le)).view, rfl, byteStream_ok hx⟩

theorem lookup_same {reader reader' : ByteReader} {index : Nat} {bytes : Bytes}
    (h : reader.lookup index = some (reader', bytes)) : reader'.log = reader.log ∧
      reader'.view = reader.view ∧ reader'.children = reader.children := by
  unfold ByteReader.lookup at h
  split at h
  · cases h
    exact ⟨rfl, rfl, rfl⟩
  · cases h
    exact ⟨rfl, rfl, rfl⟩
  · cases h

theorem readAt_runs {reader : ByteReader} {offset maxLen : Nat} (hA : Reads ≤ A) (g : Good s)
    (hl : s.LogOK reader.log) (hview : s.ViewOK s.now reader.view)
    (hkind : ∀ c ∈ reader.children, c.kind = .blob) :
    Runs t A (reader.readAt offset maxLen) (fun r u => ∃ reader' result,
      r = .ok (reader', result) ∧ reader'.log = reader.log ∧ reader'.view = reader.view ∧
      reader'.children = reader.children ∧ ∀ e child, result = .error e →
        reader.children[offset / reader.chunkBytes]? = some child →
        Inside s.body reader.view.head child → u.ViewError reader.view e) s := by
  have hv : Viewing s reader.log reader.view := ⟨hl, hview⟩
  refine Runs.ite (fun _ => Runs.pure fun _ _ _ => ⟨_, _, rfl, rfl, rfl, rfl, nofun⟩) fun _ => ?_
  cases hlook : reader.lookup (offset / reader.chunkBytes) with
  | some found =>
      obtain ⟨h1, h2, h3⟩ := lookup_same hlook
      simp only [hlook]
      exact Runs.pure fun _ _ _ => ⟨_, _, rfl, h1, h2, h3, nofun⟩
  | none =>
      cases hchild : reader.children[offset / reader.chunkBytes]? with
      | none =>
          simp only [hlook, hchild]
          exact Runs.pure fun _ _ _ => ⟨_, _, rfl, rfl, rfl, rfl, fun _ _ _ h => by cases h⟩
      | some child =>
          have hmem := List.mem_of_getElem? hchild
          simp only [hlook, hchild]
          refine Runs.attemptBind le_rfl g (readObject_runs hA g hv child) ?_
          rintro (e | bytes) u tr gu h
          · refine Runs.pure fun v o _ => ⟨_, _, rfl, rfl, rfl, rfl, fun e' c he' hc hin => ?_⟩
            obtain rfl := Except.error.inj he'
            obtain rfl := Option.some.inj hc
            exact (h hin (hkind child hmem)).mono o.le
          · exact Runs.pure fun _ _ _ => ⟨_, _, rfl, rfl, rfl, rfl, nofun⟩

end ObjectLog
