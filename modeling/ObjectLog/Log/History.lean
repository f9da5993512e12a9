import ObjectLog.Lib.Future
import ObjectLog.Log.Session

/-!
# The future of `HistoryCursor::next`

`HistoryCursor.next` is the call that runs to its end. The future it returns in the source can
be dropped at each of its three awaits, and the cursor it borrows stays as it is at that
moment. Here the same call is written with the cursor at each await.
-/

namespace ObjectLog

open Rely

variable [Blake3]

/-- A future over a caller's state. -/
abbrev Polled (σ α : Type) := Future Effect Reply Error σ α

/-- `HistoryCursor.take` as a future. The read-ahead is cleared before the head is awaited. -/
def HistoryCursor.takePolled (cursor : HistoryCursor) :
    Polled HistoryCursor (Except Error (Option HistoryItem)) :=
  match cursor.ready with
  | [] => .ended cursor (.error .corruptObject)
  | .ok (some record) :: ready =>
      .ended { cursor with nextCommit := cursor.nextCommit + 1, ready }
        (.ok (some (.commit
          { record, proofs := cursor.log.recordProofs cursor.view record.objects })))
  | .ok none :: _ =>
      .awaiting { cursor with ready := [] } (cursor.log.missingReadError cursor.view)
        fun result => .ended { cursor with ready := [] } result
  | .error error :: _ => .ended { cursor with ready := [] } (.error error)

/-- `HistoryCursor.nextRecord` as a future. The read-ahead is stored when all its reads have
ended. -/
def HistoryCursor.nextRecordPolled (cursor : HistoryCursor) :
    Polled HistoryCursor (Except Error (Option HistoryItem)) :=
  if cursor.nextCommit < cursor.view.head.tail.length then
    if cursor.ready = [] then
      .awaiting cursor cursor.fetch fun
        | .ok ready => HistoryCursor.takePolled { cursor with ready }
        | .error error => .ended cursor (.error error)
    else cursor.takePolled
  else
    .awaiting cursor (cursor.log.rememberTail cursor.view) fun _ =>
      .ended { cursor with complete := true } (.ok none)

/-- `HistoryCursor.next` as a future. -/
def HistoryCursor.nextPolled (cursor : HistoryCursor) :
    Polled HistoryCursor (Except Error (Option HistoryItem)) :=
  if cursor.complete then .ended cursor (.ok none)
  else if cursor.checkpointRead then cursor.nextRecordPolled
  else
    .awaiting cursor (cursor.log.readCheckpoint cursor.view) fun
      | .error error => .ended cursor (.error error)
      | .ok (some record) =>
          .ended { cursor with checkpointRead := true }
            (.ok (some (.checkpoint
              { record, proofs := cursor.log.recordProofs cursor.view record.objects })))
      | .ok none => HistoryCursor.nextRecordPolled { cursor with checkpointRead := true }

end ObjectLog
