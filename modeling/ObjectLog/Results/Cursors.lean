import ObjectLog.Proof.HistoryOps
import ObjectLog.Proof.Served
import ObjectLog.Replay

/-!
# History cursors

What a caller gets who rebuilds its state from a cursor, from calls that succeed, fail or are
dropped and from clones, while nobody vouches for what the store answers.
-/

namespace ObjectLog

open Rely

section

variable [Blake3]

/-- The cursors that come from one call of `history`, each with the items that it and the
cursors it was cloned from have returned. -/
inductive CursorRun (A : Answers Effect Reply) (log : Log) (view : View) :
    HistoryCursor → List HistoryItem → Prop
  | start {cursor : HistoryCursor} (h : log.history view = .ok cursor) :
      CursorRun A log view cursor []
  | returned {cursor cursor' : HistoryCursor} {items : List HistoryItem} {item : HistoryItem}
      (h : CursorRun A log view cursor items)
      (hr : cursor.next.Reaches A (.done (.ok (cursor', .ok (some item))))) :
      CursorRun A log view cursor' (items ++ [item])
  | ended {cursor cursor' : HistoryCursor} {items : List HistoryItem}
      (h : CursorRun A log view cursor items)
      (hr : cursor.next.Reaches A (.done (.ok (cursor', .ok none)))) :
      CursorRun A log view cursor' items
  | failed {cursor cursor' : HistoryCursor} {items : List HistoryItem} {e : Error}
      (h : CursorRun A log view cursor items)
      (hr : cursor.next.Reaches A (.done (.ok (cursor', .error e)))) :
      CursorRun A log view cursor' items
  | dropped {cursor cursor' : HistoryCursor} {items : List HistoryItem}
      (h : CursorRun A log view cursor items) (hl : cursor.nextPolled.Leaves A cursor') :
      CursorRun A log view cursor' items
  | clone {cursor : HistoryCursor} {items : List HistoryItem}
      (h : CursorRun A log view cursor items) : CursorRun A log view cursor.clone items

variable {A : Answers Effect Reply} {log : Log} {view : View} {cursor cursor' : HistoryCursor}
  {items : List HistoryItem} {n : Nat}

theorem CursorAt.next {r : Except Error (Option HistoryItem)} (h : CursorAt A log view n cursor)
    (hr : cursor.next.Reaches A (.done (.ok (cursor', r)))) : NextAt A log view n cursor' r := by
  rw [← nextPolled_run] at hr
  exact (nextPolled_keeps h).ended hr

/-- The items that were returned are those of the first entries. -/
def Returned (A : Answers Effect Reply) (log : Log) (view : View) (items : List HistoryItem) :
    Prop :=
  List.Forall₂ (fun entry item => entry.Reads A log view item) (view.history.take items.length)
    items

theorem Returned.snoc {item : HistoryItem} {entry : HistoryEntry}
    (h : Returned A log view items) (hentry : view.history[items.length]? = some entry)
    (hreads : entry.Reads A log view item) : Returned A log view (items ++ [item]) := by
  unfold Returned
  rw [List.length_append, List.length_singleton, List.take_add_one, hentry]
  exact List.rel_append h (.cons hreads .nil)

theorem CursorRun.at (h : CursorRun A log view cursor items) :
    CursorAt A log view items.length cursor ∧ Returned A log view items := by
  induction h with
  | start h =>
      simp only [Log.history, bind_ok, pure, Except.pure, Except.ok.injEq] at h
      obtain ⟨⟨⟩, -, rfl⟩ := h
      refine ⟨⟨rfl, rfl, fun _ => ⟨rfl, rfl, rfl⟩, by simp, Nat.zero_le _, by simp, by simp⟩, ?_⟩
      exact .nil
  | returned _ hr ih =>
      obtain ⟨hat, entry, hentry, hreads⟩ := ih.1.next hr
      rw [List.length_append, List.length_singleton]
      exact ⟨hat, ih.2.snoc hentry hreads⟩
  | ended _ hr ih => exact ⟨(ih.1.next hr).1, ih.2⟩
  | failed _ hr ih => exact ⟨ih.1.next hr, ih.2⟩
  | dropped _ hl ih => exact ⟨(nextPolled_keeps ih.1).dropped hl, ih.2⟩
  | clone _ ih => exact ⟨ih.1.forget, ih.2⟩

/-- **A cursor returns the history of its view once and in order.** The items returned so far
are the authenticated records of the first entries of the history, each commit with the
parent that the view gives it. The next item is that of the next entry, whatever failed or
was dropped before, and the end is reported only behind the last one. -/
theorem cursor_in_order (h : CursorRun anything log view cursor items) :
    List.Forall₂ (fun entry item => entry.Reads anything log view item)
      (view.history.take items.length) items ∧
    (cursor.complete = true → items.length = view.history.length) ∧
    (∀ cursor' item, cursor.next.Reaches anything (.done (.ok (cursor', .ok (some item)))) →
      ∃ entry, view.history[items.length]? = some entry ∧ entry.Reads anything log view item) ∧
    ∀ cursor', cursor.next.Reaches anything (.done (.ok (cursor', .ok none))) →
      items.length = view.history.length ∧ cursor'.complete = true := by
  obtain ⟨hat, hreturned⟩ := h.at
  refine ⟨hreturned, hat.complete, ?_, ?_⟩
  · intro cursor' item hr
    exact (hat.next hr).2
  · intro cursor' hr
    exact (hat.next hr).2

end

section

attribute [local instance] sampleHash

/-- A checkpoint and a commit are read, and there is nothing else. -/
def historyFacts (w : World) : Bool :=
  match w.logAt 0, w.viewAt 7 with
  | some log, some view =>
      match log.history view with
      | .ok cursor =>
          match cursor.next.answeredBy (answersFrom w.state.objects) with
          | .ok (cursor₁, .ok (some _)) =>
              match cursor₁.next.answeredBy (answersFrom w.state.objects) with
              | .ok (_, .ok (some _)) => view.history.length == 2
              | _ => false
          | _ => false
      | .error _ => false
  | _, _ => false

theorem firstCheckpoint_history : ends firstCheckpoint historyFacts = true := by
  decide +kernel

theorem cursor_in_order_firstCheckpoint : ∃ (log : Log) (view : View) (cursor : HistoryCursor)
    (items : List HistoryItem), CursorRun anything log view cursor items ∧
    view.history.length = 2 ∧
    List.Forall₂ (fun entry item => entry.Reads anything log view item) view.history items := by
  obtain ⟨-, -, hf⟩ := ends_ok firstCheckpoint_history
  generalize sample firstCheckpoint = w at hf
  unfold historyFacts at hf
  split at hf
  · rename_i log view _ _
    split at hf
    · rename_i cursor hstart
      split at hf
      · rename_i cursor₁ item₁ h₁
        split at hf
        · rename_i cursor₂ item₂ h₂
          have hlen : view.history.length = 2 := beq_iff_eq.1 hf
          have next : ∀ {c : HistoryCursor} {r}, c.next.answeredBy (answersFrom w.state.objects) = r →
              c.next.Reaches anything (.done r) := by
            intro c r hr
            rw [← hr]
            exact Prog.reaches_answeredBy fun _ => trivial
          have run := ((CursorRun.start hstart).returned (next h₁)).returned (next h₂)
          refine ⟨log, view, cursor₂, [item₁, item₂], run, hlen, ?_⟩
          have hfirst := (cursor_in_order run).1
          rwa [List.take_of_length_le (by simp [hlen])] at hfirst
        · cases hf
      · cases hf
    · cases hf
  · cases hf

end

end ObjectLog
