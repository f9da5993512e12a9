import ObjectLog.Log.History
import ObjectLog.Proof.Answered

/-!
# The position of a history cursor

A cursor stands before one entry of the history of its view, and its read-ahead holds records
of the entries from there on. Every way in which `next` can end or be dropped keeps that; only
a returned record moves the position, and by one.
-/

namespace ObjectLog

open Rely

variable [Blake3] {A : Answers Effect Reply} {cursor : HistoryCursor}

/-! ## The future is the call -/

theorem takePolled_run : cursor.takePolled.run = cursor.take := by
  obtain ⟨log, view, checkpointRead, nextCommit, ready, complete⟩ := cursor
  match ready with
  | [] => rfl
  | .ok (some record) :: _ => rfl
  | .ok none :: _ => rfl
  | .error e :: _ => rfl

omit [Blake3] in
/-- The entries of the tail that a read-ahead reads, each with its place. -/
theorem fetch_entries {started : List (Except Error FlightId)} {window : Nat}
    {x : (CommitRef × Except Error FlightId) × Nat}
    (hx : x ∈ (((cursor.view.head.tail.drop cursor.nextCommit).take window).zip started).zipIdx) :
    cursor.view.head.tail[cursor.nextCommit + x.2]? = some x.1.1 := by
  obtain ⟨⟨reference, flight⟩, offset⟩ := x
  have hget := List.mem_zipIdx_iff_getElem?.1 hx
  obtain ⟨href, -⟩ := List.getElem?_zip_eq_some.1 hget
  rw [List.getElem?_take, List.getElem?_drop] at href
  split at href
  · exact href
  · cases href

/-- What a read-ahead may hold for an entry of the tail. -/
def ReadyAs (A : Answers Effect Reply) (log : Log) (view : View) (index : Nat) :
    Except Error (Option CommitRecord) → Prop
  | .ok (some record) => TailReads A log view index record
  | _ => True

/-- Every read keeps its own error, so the read-ahead itself has none. -/
theorem fetch_answered : Ends A cursor.fetch fun r => ∃ ready, r = .ok ready ∧
    ∀ (j : Nat) x, ready[j]? = some x → ReadyAs A cursor.log cursor.view (cursor.nextCommit + j) x := by
  unfold HistoryCursor.fetch
  refine (Ends.mapM (P := fun _ _ => True) fun reference _ =>
    startCommit_answered.mono fun r ⟨started, hr⟩ => ⟨started, hr, trivial⟩).bind ?_ nofun
  intro started _
  refine (Ends.mapM (P := fun x y => ReadyAs A cursor.log cursor.view (cursor.nextCommit + x.2) y)
    fun x hx => ?_).mono ?_
  · refine Ends.attempt ((finishTailRecord_answered (fetch_entries hx) _).mono fun r hr => ?_)
    refine ⟨r, rfl, ?_⟩
    match r with
    | .ok (some record) => exact hr
    | .ok none => trivial
    | .error e => trivial
  · rintro r ⟨ready, hr, hall⟩
    refine ⟨ready, hr, fun j y hy => ?_⟩
    obtain ⟨hlen, hget⟩ := List.forall₂_iff_get.1 hall
    obtain ⟨hj, rfl⟩ := List.getElem?_eq_some_iff.1 hy
    simpa using hget j (by omega) hj

theorem nextRecordPolled_run : cursor.nextRecordPolled.run = cursor.nextRecord := by
  unfold HistoryCursor.nextRecordPolled HistoryCursor.nextRecord
  split
  · split
    · refine Ends.attempt_bind (fetch_answered.mono fun r ⟨ready, hr, _⟩ => ⟨ready, hr⟩) ?_
      intro ready
      exact takePolled_run
    · exact takePolled_run
  · rfl

/-- **Polled to its end, the future is the call.** -/
theorem nextPolled_run : cursor.nextPolled.run = cursor.next := by
  unfold HistoryCursor.nextPolled HistoryCursor.next
  split
  · rfl
  · split
    · exact nextRecordPolled_run
    · refine congrArg (Prog.attempt _ >>= ·) (funext fun r => ?_)
      match r with
      | .error e => rfl
      | .ok (some record) => rfl
      | .ok none => exact nextRecordPolled_run

/-! ## The history of a view -/

/-- A record in the history of a view. A commit has its place in the tail. -/
inductive HistoryEntry
  | checkpoint (reference : CheckpointRef)
  | commit (index : Nat) (reference : CommitRef)

/-- The checkpoint if there is one, then the commits of the tail. -/
def View.history (view : View) : List HistoryEntry :=
  view.head.checkpoint.toList.map .checkpoint ++
    view.head.tail.zipIdx.map fun x => .commit x.2 x.1

/-- The item is the record of the entry, as it was found and authenticated. A commit names
the parent that the view asks for. -/
def HistoryEntry.Reads (A : Answers Effect Reply) (log : Log) (view : View) :
    HistoryEntry → HistoryItem → Prop
  | .checkpoint reference, .checkpoint item =>
      ∃ checkpoint, CheckpointReads A log reference checkpoint ∧
        item.record = { snapshot := checkpoint.snapshot, objects := checkpoint.objects } ∧
        item.proofs = log.recordProofs view item.record.objects
  | .commit index reference, .commit item =>
      CommitReads A log reference item.record ∧
        item.record.expectedTip = view.expectedTipAt index ∧
        item.proofs = log.recordProofs view item.record.objects
  | _, _ => False

omit [Blake3] in
theorem View.history_checkpoint {view : View} {reference : CheckpointRef}
    (h : view.head.checkpoint = some reference) :
    view.history[0]? = some (.checkpoint reference) := by
  simp [View.history, h]

omit [Blake3] in
theorem View.history_commit {view : View} {index : Nat} {reference : CommitRef}
    (h : view.head.tail[index]? = some reference) :
    view.history[view.head.checkpoint.toList.length + index]? = some (.commit index reference) := by
  rw [View.history, List.getElem?_append_right (by simp)]
  simp [h]

omit [Blake3] in
theorem View.history_length {view : View} :
    view.history.length = view.head.checkpoint.toList.length + view.head.tail.length := by
  simp [View.history]

/-- **The invariant of a cursor** that stands before entry `n` of the history. -/
structure CursorAt (A : Answers Effect Reply) (log : Log) (view : View) (n : Nat)
    (cursor : HistoryCursor) : Prop where
  handle : cursor.log = log
  shown : cursor.view = view
  start : cursor.checkpointRead = false → n = 0 ∧ cursor.nextCommit = 0 ∧ cursor.ready = []
  place : cursor.checkpointRead = true →
    n = view.head.checkpoint.toList.length + cursor.nextCommit
  bound : cursor.nextCommit ≤ view.head.tail.length
  ready : ∀ (j : Nat) x, cursor.ready[j]? = some x → ReadyAs A log view (cursor.nextCommit + j) x
  complete : cursor.complete = true → n = view.history.length

variable {log : Log} {view : View} {n : Nat}

theorem CursorAt.forget (h : CursorAt A log view n cursor) :
    CursorAt A log view n { cursor with ready := [] } :=
  { h with start := fun hs => ⟨(h.start hs).1, (h.start hs).2.1, rfl⟩
           ready := nofun }

/-- How a call of `next` on a cursor at entry `n` ends. -/
def NextAt (A : Answers Effect Reply) (log : Log) (view : View) (n : Nat)
    (cursor : HistoryCursor) : Except Error (Option HistoryItem) → Prop
  | .ok (some item) => CursorAt A log view (n + 1) cursor ∧
      ∃ entry, view.history[n]? = some entry ∧ entry.Reads A log view item
  | .ok none => CursorAt A log view n cursor ∧ n = view.history.length ∧ cursor.complete = true
  | .error _ => CursorAt A log view n cursor

theorem takePolled_keeps (h : CursorAt A log view n cursor) (hread : cursor.checkpointRead = true)
    (hopen : cursor.complete = false) :
    cursor.takePolled.Keeps A (CursorAt A log view n) (NextAt A log view n) := by
  have hforget := h.forget
  obtain ⟨clog, cview, checkpointRead, nextCommit, ready, complete⟩ := cursor
  obtain ⟨rfl, rfl, hstart, hplace, hbound, hready, hcomplete⟩ := h
  match ready with
  | [] => exact hforget
  | .error e :: _ => exact hforget
  | .ok none :: _ =>
      refine ⟨hforget, ?_⟩
      refine (missingReadError_answered (V := fun _ => False)).mono fun r hr => ?_
      match r with
      | .error e => exact hforget
      | .ok item => exact hr.elim
  | .ok (some record) :: rest =>
      obtain ⟨reference, hindex, hrecord, hparent⟩ := hready 0 _ rfl
      have hn := hplace hread
      dsimp only at hn hread hopen
      refine ⟨⟨rfl, rfl, ?_, ?_, ?_, ?_, ?_⟩, .commit nextCommit reference, ?_, hrecord, hparent, rfl⟩
      · intro hfalse
        rw [hread] at hfalse
        cases hfalse
      · intro _
        dsimp only
        omega
      · exact (List.getElem?_eq_some_iff.1 hindex).1
      · intro j x hx
        have := hready (j + 1) x hx
        rwa [show nextCommit + (j + 1) = nextCommit + 1 + j by omega] at this
      · intro htrue
        rw [hopen] at htrue
        cases htrue
      · rw [hn]
        exact View.history_commit hindex

theorem nextRecordPolled_keeps (h : CursorAt A log view n cursor)
    (hread : cursor.checkpointRead = true) (hopen : cursor.complete = false) :
    cursor.nextRecordPolled.Keeps A (CursorAt A log view n) (NextAt A log view n) := by
  unfold HistoryCursor.nextRecordPolled
  split
  · split
    · refine ⟨h, fetch_answered.mono ?_⟩
      rintro r ⟨ready, rfl, hready⟩
      rw [h.handle, h.shown] at hready
      refine takePolled_keeps { h with start := ?_, ready := hready } hread hopen
      intro hfalse
      rw [hread] at hfalse
      cases hfalse
    · exact takePolled_keeps h hread hopen
  · rename_i hlast
    -- the tail has been returned to its end
    have hend : n = view.history.length := by
      have hbound := h.bound
      rw [h.shown] at hlast
      rw [h.place hread, View.history_length]
      omega
    refine ⟨h, Ends.all fun r => ?_⟩
    exact ⟨{ h with complete := fun _ => hend }, hend, rfl⟩

/-- **What a call of `next` does to the position**, where it ends and wherever it is dropped. -/
theorem nextPolled_keeps (h : CursorAt A log view n cursor) :
    cursor.nextPolled.Keeps A (CursorAt A log view n) (NextAt A log view n) := by
  unfold HistoryCursor.nextPolled
  split
  · rename_i hdone
    exact ⟨h, h.complete hdone, hdone⟩
  rename_i hopen
  rw [Bool.not_eq_true] at hopen
  split
  · exact nextRecordPolled_keeps h ‹_› hopen
  rename_i hread
  rw [Bool.not_eq_true] at hread
  obtain ⟨rfl, hnext, hnone⟩ := h.start hread
  refine ⟨h, readCheckpoint_answered.mono fun r hr => ?_⟩
  match r with
  | .error e => exact h
  | .ok (some record) =>
      rw [h.shown] at hr
      obtain ⟨reference, checkpoint, hc, hck, rfl⟩ := hr
      rw [h.handle] at hck
      refine ⟨⟨h.handle, h.shown, nofun, fun _ => ?_, h.bound, h.ready, ?_⟩,
        .checkpoint reference, View.history_checkpoint hc, checkpoint, hck, rfl, ?_⟩
      · dsimp only
        rw [hc, hnext]
        rfl
      · intro htrue
        rw [hopen] at htrue
        cases htrue
      · rw [h.handle, h.shown]
  | .ok none =>
      rw [h.shown] at hr
      refine nextRecordPolled_keeps { h with start := nofun, place := fun _ => ?_ } rfl hopen
      dsimp only
      rw [hr, hnext]
      rfl

end ObjectLog
