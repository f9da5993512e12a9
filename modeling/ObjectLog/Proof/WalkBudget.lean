import ObjectLog.Log.Schedule
import ObjectLog.Proof.WalkErrors

/-!
# The read budget of a graph walk

However its reads are answered, and in whatever order, the loop of a walk keeps to its budget.
An object that finds no room waits at the front of the queue for the reads before it, and it
is admitted without a test once none of them is left: so the loop cannot stall, and it ends
only with nothing left to do.
-/

namespace ObjectLog

open Rely

variable [Blake3] {A : Answers Effect Reply} {log : Log}
  {blocked : Option (List CollectionCandidate)} {mode : GraphWalk}
  {pending rest : List ObjectRef} {reads : List GraphRead} {activeBytes : Nat} {object : ObjectRef}

/-! ## The budget -/

/-- The reads in flight are few, and what they declare fits one object. -/
structure WalkLoop.Within (loop : WalkLoop) (log : Log) : Prop where
  count : loop.reads.length ≤ maxConcurrentReads
  bytes : loop.activeBytes = (loop.reads.map fun r => r.len.toNat).sum
  room : loop.activeBytes ≤ log.options.maxObjectBytes.toNat

/-- The variables of the loop. Each read in flight reserves what its object declares. -/
structure Budget (log : Log) (pending : List ObjectRef) (reads : List GraphRead)
    (activeBytes : Nat) : Prop where
  fits : ∀ r ∈ pending, r.len ≤ log.options.maxObjectBytes
  declared : ∀ x ∈ reads, x.1 = x.2.1.len.toNat
  within : (WalkLoop.of pending reads activeBytes).Within log

omit [Blake3] in
theorem Budget.active (h : Budget log pending reads activeBytes) :
    activeBytes = (reads.map fun x => x.1).sum := by
  have hmap : (reads.map fun x => x.1) = (reads.map fun x => x.2.1).map fun r => r.len.toNat := by
    rw [List.map_map]
    exact List.map_congr_left h.declared
  rw [hmap]
  exact h.within.bytes

omit [Blake3] in
/-- There is room for an object: no read is in flight, or it was tested. -/
theorem Budget.admits (h : Budget log (object :: pending) reads activeBytes)
    (hroom : ¬ (reads ≠ [] ∧
      log.options.maxObjectBytes.toNat - activeBytes < object.len.toNat)) :
    activeBytes + object.len.toNat ≤ log.options.maxObjectBytes.toNat := by
  have hfits := UInt64.le_iff_toNat_le.1 (h.fits object (by simp))
  have hle := h.within.room
  change activeBytes ≤ _ at hle
  by_cases hr : reads = []
  · have hactive := h.active
    rw [hr] at hactive
    simp only [List.map_nil, List.sum_nil] at hactive
    omega
  · by_contra hover
    exact hroom ⟨hr, by omega⟩

omit [Blake3] in
theorem Budget.skip (h : Budget log (object :: pending) reads activeBytes) :
    Budget log pending reads activeBytes :=
  ⟨fun r hr => h.fits r (by simp [hr]), h.declared, h.within.count, h.within.bytes, h.within.room⟩

omit [Blake3] in
theorem Budget.start (h : Budget log (object :: pending) reads activeBytes)
    (hcount : reads.length < maxConcurrentReads)
    (hroom : activeBytes + object.len.toNat ≤ log.options.maxObjectBytes.toNat)
    (started : Except Error FlightId) :
    Budget log pending (reads ++ [(object.len.toNat, object, started)])
      (activeBytes + object.len.toNat) := by
  refine ⟨fun r hr => h.fits r (by simp [hr]), fun x hx => ?_, ?_, ?_, hroom⟩
  · rcases List.mem_append.1 hx with hx | hx
    · exact h.declared x hx
    · rw [List.mem_singleton.1 hx]
  · simp only [WalkLoop.of, List.length_map, List.length_append, List.length_cons, List.length_nil]
    omega
  · have hbytes := h.within.bytes
    simp only [WalkLoop.of, List.map_append, List.map_cons, List.map_nil, List.sum_append,
      List.sum_cons, List.sum_nil] at hbytes ⊢
    omega

omit [Blake3] in
/-- A read that ends gives back what it reserved, and only that. -/
theorem Budget.finish {i : Nat} {x : GraphRead} (h : Budget log pending reads activeBytes)
    (new : List ObjectRef) (hx : reads[i]? = some x)
    (hnew : ∀ r ∈ new, r.len ≤ log.options.maxObjectBytes) :
    Budget log (pending ++ new) (reads.eraseIdx i) (activeBytes - x.1) := by
  have hsum := sum_eraseIdx (fun x : GraphRead => x.2.1.len.toNat) hx
  have hbytes := h.within.bytes
  have hroom := h.within.room
  have hdeclared := h.declared x (List.mem_of_getElem? hx)
  simp only [WalkLoop.of, List.map_map] at hbytes
  change activeBytes ≤ _ at hroom
  refine ⟨fun r hr => ?_, fun y hy => h.declared y (List.mem_of_mem_eraseIdx hy), ?_, ?_, ?_⟩
  · rcases List.mem_append.1 hr with hr | hr
    · exact h.fits r hr
    · exact hnew r hr
  · have hle := h.within.count
    simp only [WalkLoop.of, List.length_map] at hle ⊢
    exact (List.length_eraseIdx_le ..).trans hle
  · simp only [WalkLoop.of, List.map_map]
    change activeBytes = (reads.map fun x => x.2.1.len.toNat).sum at hbytes
    change activeBytes - x.1 = ((reads.eraseIdx i).map fun x => x.2.1.len.toNat).sum
    omega
  · exact (Nat.sub_le _ _).trans hroom

/-! ## Starting reads -/

omit [Blake3] in
/-- **What the inner loop does with the front of the queue.** It stops, with a read in flight;
it skips a blob that the walk does not read; or it starts a read within the budget. -/
theorem startReadsPolled_cases (mode : GraphWalk)
    (h : Budget log (object :: pending) reads activeBytes) :
    (reads ≠ [] ∧ log.startReadsPolled mode (object :: pending) reads activeBytes =
      .ended (.of (object :: pending) reads activeBytes)
        (.ok (object :: pending, reads, activeBytes))) ∨
    ((mode = .reachability ∧ object.kind = .blob) ∧
      log.startReadsPolled mode (object :: pending) reads activeBytes =
        log.startReadsPolled mode pending reads activeBytes) ∨
    ∃ loop : WalkLoop, loop.pending = pending ∧ loop.reads.getLast? = some object ∧
      loop.Within log ∧
      (∀ started, Budget log pending (reads ++ [(object.len.toNat, object, started)])
        (activeBytes + object.len.toNat)) ∧
      log.startReadsPolled mode (object :: pending) reads activeBytes =
        .awaiting loop (log.startChildren object) fun
          | .error error => .ended loop (.error error)
          | .ok started => log.startReadsPolled mode pending
              (reads ++ [(object.len.toNat, object, started)])
              (activeBytes + object.len.toNat) := by
  rw [Log.startReadsPolled]
  by_cases hfull : maxConcurrentReads ≤ reads.length
  · refine .inl ⟨?_, if_pos hfull⟩
    rintro rfl
    simp [maxConcurrentReads] at hfull
  rw [if_neg hfull]
  by_cases hskip : mode = .reachability ∧ object.kind = .blob
  · exact .inr (.inl ⟨hskip, if_pos hskip⟩)
  rw [if_neg hskip]
  dsimp only
  by_cases hroom : reads ≠ [] ∧ log.options.maxObjectBytes.toNat - activeBytes < object.len.toNat
  · exact .inl ⟨hroom.1, if_pos hroom⟩
  have hsum := h.admits hroom
  have hmax : log.options.maxObjectBytes.toNat < 2 ^ 64 := UInt64.toNat_lt _
  have hbudget := h.start (Nat.lt_of_not_le hfull) hsum
  rw [if_neg hroom, if_neg (by omega)]
  refine .inr (.inr ⟨_, rfl, by simp, ?_, hbudget, rfl⟩)
  have hwithin := (hbudget (.error .corruptObject)).within
  simpa [WalkLoop.of] using hwithin

/-- The read of the object is being started, and what was behind it is the rest of the
queue. -/
def WalkLoop.Starts (object : ObjectRef) (rest : List ObjectRef) (loop : WalkLoop) : Prop :=
  loop.reads.getLast? = some object ∧ ∃ new, loop.pending = rest ++ new

/-- The walk ended with an error. -/
def WalkFailed (r : Except Error Visited) : Prop := ∃ e, r = .error e

omit [Blake3] in
/-- An object on the queue is started, or it is still there and a read is in flight. -/
theorem startReadsPolled_inevitably {f : WalkLoop →
      Except Error (List ObjectRef × List GraphRead × Nat) → Polled WalkLoop (Except Error Visited)}
    (hread : ¬ (mode = .reachability ∧ object.kind = .blob))
    (herror : ∀ loop e, (f loop (.error e)).Inevitably A (WalkLoop.Starts object rest) WalkFailed) :
    ∀ (pending before : List ObjectRef) (reads : List GraphRead) (activeBytes : Nat),
      Budget log pending reads activeBytes → pending = before ++ object :: rest →
      (∀ before' reads' activeBytes', Budget log (before' ++ object :: rest) reads' activeBytes' →
        reads' ≠ [] → before'.length + reads'.length ≤ before.length + reads.length →
        (f (.of (before' ++ object :: rest) reads' activeBytes')
          (.ok (before' ++ object :: rest, reads', activeBytes'))).Inevitably A
            (WalkLoop.Starts object rest) WalkFailed) →
      ((log.startReadsPolled mode pending reads activeBytes).bind f).Inevitably A
        (WalkLoop.Starts object rest) WalkFailed
  | [], before, reads, activeBytes, _, hp, _ => by simp at hp
  | head :: pending, before, reads, activeBytes, h, hp, hf => by
      rcases startReadsPolled_cases mode h with
        ⟨hne, heq⟩ | ⟨hskip, heq⟩ | ⟨loop, hpending, hlast, -, hbudget, heq⟩
      · rw [heq, hp]
        exact hf before reads activeBytes (hp ▸ h) hne le_rfl
      · rw [heq]
        cases before with
        | nil =>
            obtain ⟨rfl, -⟩ := List.cons.inj hp
            exact absurd hskip hread
        | cons x before =>
            obtain ⟨-, htail⟩ := List.cons.inj hp
            refine startReadsPolled_inevitably hread herror pending before reads activeBytes
              h.skip htail ?_
            intro before' reads' activeBytes' h' hne hle
            refine hf before' reads' activeBytes' h' hne ?_
            simp only [List.length_cons]
            omega
      · rw [heq]
        cases before with
        | nil =>
            obtain ⟨rfl, rfl⟩ := List.cons.inj hp
            exact .inl ⟨hlast, [], by rw [hpending, List.append_nil]⟩
        | cons x before =>
            obtain ⟨-, htail⟩ := List.cons.inj hp
            refine .inr (Ends.all fun r => ?_)
            cases r with
            | error e => exact herror loop e
            | ok started =>
                refine startReadsPolled_inevitably hread herror pending before _ _
                  (hbudget started) htail ?_
                intro before' reads' activeBytes' h' hne hle
                refine hf before' reads' activeBytes' h' hne ?_
                simp only [List.length_append, List.length_cons, List.length_nil] at hle ⊢
                omega

/-! ## The loop -/

/-- The objects that are still to be read, or that can still be put on the queue. -/
def Log.workLeft (log : Log) (visited : Visited) (pending : List ObjectRef)
    (reads : List GraphRead) : Nat :=
  pending.length + reads.length + (log.options.maxCollectionObjects.toNat - visited.length)

omit [Blake3] in
/-- A turn of the loop uses up some of the work. -/
theorem Enqueued.workLeft {visited : Visited} {walk : Walk} {children : List ObjectRef} {i : Nat}
    {x : GraphRead} (h : Enqueued log blocked ⟨visited, pending⟩ walk children)
    (hx : reads[i]? = some x) :
    log.workLeft walk.visited walk.pending (reads.eraseIdx i) < log.workLeft visited pending reads := by
  obtain ⟨new, hp, hl, hmax, -⟩ := h.pending
  have hlt : i < reads.length := (List.getElem?_eq_some_iff.1 hx).1
  have herase := List.length_eraseIdx_add_one hlt
  unfold Log.workLeft
  rw [hp, List.length_append]
  dsimp only at hl ⊢
  by_cases hnone : new = []
  · subst hnone
    simp only [List.length_nil] at hl ⊢
    omega
  · have hle := hmax hnone
    omega

/-- The loop is at the end of a read of `reads`, which is the one at `i`. -/
theorem endReadPolled_inevitably {fuel i : Nat} {visited : Visited} {before : List ObjectRef}
    {x : GraphRead} {loop : WalkLoop}
    (ih : ∀ (walk : Walk) (reads : List GraphRead) (activeBytes : Nat) (before rest : List ObjectRef),
      Budget log walk.pending reads activeBytes → walk.pending = before ++ object :: rest →
      log.workLeft walk.visited walk.pending reads ≤ fuel →
      (log.walkGraphPolled blocked mode fuel walk reads activeBytes).Inevitably A
        (WalkLoop.Starts object rest) WalkFailed)
    (h : Budget log (before ++ object :: rest) reads activeBytes) (hx : reads[i]? = some x)
    (hfuel : log.workLeft visited (before ++ object :: rest) reads ≤ fuel + 1) :
    (log.endReadPolled blocked ⟨visited, before ++ object :: rest⟩
      (log.walkGraphPolled blocked mode fuel) loop x (reads.eraseIdx i) activeBytes).Inevitably A
        (WalkLoop.Starts object rest) WalkFailed := by
  refine .inr (Ends.all fun r => ?_)
  match r with
  | .error e => exact .inr ⟨e, rfl⟩
  | .ok children =>
      dsimp only
      cases hwalk : children.foldlM (log.enqueueObject blocked)
          ⟨visited, before ++ object :: rest⟩ with
      | error e => exact .inr ⟨e, rfl⟩
      | ok walk =>
          have enq := enqueueObjects_ok hwalk
          have hwork := enq.workLeft hx
          obtain ⟨new, hp, -, -, hnew, -⟩ := enq.pending
          have hbudget := h.finish _ hx fun r hr => (hnew r hr).2.2
          dsimp only at hp
          rw [← hp] at hbudget
          have hstarted := ih walk _ _ before (rest ++ new) hbudget (by rw [hp]; simp) (by omega)
          refine hstarted.mono ?_
          rintro loop ⟨hlast, more, hmore⟩
          exact ⟨hlast, new ++ more, by rw [hmore, List.append_assoc]⟩

theorem walkTurnPolled_inevitably {fuel : Nat} {visited : Visited} {before : List ObjectRef}
    {loop : WalkLoop}
    (ih : ∀ (walk : Walk) (reads : List GraphRead) (activeBytes : Nat) (before rest : List ObjectRef),
      Budget log walk.pending reads activeBytes → walk.pending = before ++ object :: rest →
      log.workLeft walk.visited walk.pending reads ≤ fuel →
      (log.walkGraphPolled blocked mode fuel walk reads activeBytes).Inevitably A
        (WalkLoop.Starts object rest) WalkFailed)
    (h : Budget log (before ++ object :: rest) reads activeBytes) (hne : reads ≠ [])
    (hfuel : log.workLeft visited (before ++ object :: rest) reads ≤ fuel + 1) :
    (log.walkTurnPolled blocked visited (log.walkGraphPolled blocked mode fuel) loop
      (.ok (before ++ object :: rest, reads, activeBytes))).Inevitably A
        (WalkLoop.Starts object rest) WalkFailed := by
  obtain ⟨read, others, rfl⟩ := List.exists_cons_of_ne_nil hne
  refine .inr (Ends.all fun r => ?_)
  match r with
  | .error e => exact .inr ⟨e, rfl⟩
  | .ok i => exact endReadPolled_inevitably ih h (getElem?_get (read :: others) i) hfuel

/-- **What is on the queue is started**, unless the walk fails before. -/
theorem walkGraphPolled_inevitably
    (hread : ¬ (mode = .reachability ∧ object.kind = .blob)) :
    ∀ (fuel : Nat) (walk : Walk) (reads : List GraphRead) (activeBytes : Nat)
      (before rest : List ObjectRef), Budget log walk.pending reads activeBytes →
      walk.pending = before ++ object :: rest →
      log.workLeft walk.visited walk.pending reads ≤ fuel →
      (log.walkGraphPolled blocked mode fuel walk reads activeBytes).Inevitably A
        (WalkLoop.Starts object rest) WalkFailed
  | 0, walk, reads, activeBytes, before, rest, _, hp, hfuel => by
      unfold Log.workLeft at hfuel
      rw [hp, List.length_append, List.length_cons] at hfuel
      omega
  | fuel + 1, walk, reads, activeBytes, before, rest, h, hp, hfuel => by
      unfold Log.walkGraphPolled
      refine startReadsPolled_inevitably hread (fun loop e => ?_) walk.pending before reads
        activeBytes h hp ?_
      · exact .inr ⟨e, rfl⟩
      intro before' reads' activeBytes' h' hne hle
      refine walkTurnPolled_inevitably (walkGraphPolled_inevitably hread fuel) h' hne ?_
      unfold Log.workLeft at hfuel ⊢
      rw [hp] at hfuel
      simp only [List.length_append, List.length_cons] at hfuel ⊢
      omega

/-! ## Every await -/

/-- What holds of the loop at an await or at its end. -/
structure Scheduled (A : Answers Effect Reply) (log : Log) (mode : GraphWalk)
    (m : Polled WalkLoop (Except Error Visited)) : Prop where
  within : m.state.Within log
  started : ∀ before object rest, m.state.pending = before ++ object :: rest →
    ¬ (mode = .reachability ∧ object.kind = .blob) →
    m.Inevitably A (WalkLoop.Starts object rest) WalkFailed
  complete : ∀ loop visited, m = .ended loop (.ok visited) → loop.pending = [] ∧ loop.reads = []

omit [Blake3] in
theorem Scheduled.failed {loop : WalkLoop} {e : Error} (h : loop.Within log) :
    Scheduled A log mode (.ended loop (.error e)) :=
  ⟨h, fun _ _ _ _ _ => .inr ⟨e, rfl⟩, fun _ _ heq => by cases heq⟩

omit [Blake3] in
theorem Scheduled.finished {loop : WalkLoop} {visited : Visited} (h : loop.Within log)
    (hpending : loop.pending = []) (hreads : loop.reads = []) :
    Scheduled A log mode (.ended loop (.ok visited)) := by
  refine ⟨h, fun before object rest hp => ?_, fun loop' visited' heq => ?_⟩
  · change loop.pending = _ at hp
    simp [hpending] at hp
  · obtain ⟨rfl, -⟩ := Future.ended.inj heq
    exact ⟨hpending, hreads⟩

/-- The end of a read, in a loop whose later turns are scheduled. -/
theorem endReadPolled_always {fuel i : Nat} {visited : Visited} {x : GraphRead}
    (ih : ∀ (walk : Walk) (reads : List GraphRead) (activeBytes : Nat),
      Budget log walk.pending reads activeBytes →
      log.workLeft walk.visited walk.pending reads ≤ fuel →
      (log.walkGraphPolled blocked mode fuel walk reads activeBytes).Always A
        (Scheduled A log mode))
    (h : Budget log pending reads activeBytes) (hx : reads[i]? = some x)
    (hfuel : log.workLeft visited pending reads ≤ fuel + 1) :
    (log.endReadPolled blocked ⟨visited, pending⟩ (log.walkGraphPolled blocked mode fuel)
      (.of pending reads activeBytes) x (reads.eraseIdx i) activeBytes).Always A
        (Scheduled A log mode) := by
  have hended : (WalkLoop.of pending (reads.eraseIdx i) (activeBytes - x.1)).Within log := by
    have hbudget := h.finish [] hx nofun
    rw [List.append_nil] at hbudget
    exact hbudget.within
  refine ⟨⟨h.within, ?_, fun _ _ heq => by cases heq⟩, Ends.all fun r => ?_⟩
  · rintro before object rest hp hread
    obtain rfl : pending = before ++ object :: rest := hp
    exact endReadPolled_inevitably (walkGraphPolled_inevitably hread fuel) h hx hfuel
  match r with
  | .error e => exact Scheduled.failed hended
  | .ok children =>
      dsimp only
      cases hwalk : children.foldlM (log.enqueueObject blocked) ⟨visited, pending⟩ with
      | error e => exact Scheduled.failed hended
      | ok walk =>
          have enq := enqueueObjects_ok hwalk
          have hwork := enq.workLeft hx
          obtain ⟨new, hp, -, -, hnew, -⟩ := enq.pending
          have hbudget := h.finish _ hx fun r hr => (hnew r hr).2.2
          dsimp only at hp
          rw [← hp] at hbudget
          exact ih walk _ _ hbudget (by omega)

theorem walkTurnPolled_always {fuel : Nat} {visited : Visited}
    (ih : ∀ (walk : Walk) (reads : List GraphRead) (activeBytes : Nat),
      Budget log walk.pending reads activeBytes →
      log.workLeft walk.visited walk.pending reads ≤ fuel →
      (log.walkGraphPolled blocked mode fuel walk reads activeBytes).Always A
        (Scheduled A log mode))
    (h : Budget log pending reads activeBytes) (hnone : reads = [] → pending = [])
    (hfuel : log.workLeft visited pending reads ≤ fuel + 1) :
    (log.walkTurnPolled blocked visited (log.walkGraphPolled blocked mode fuel)
      (.of pending reads activeBytes) (.ok (pending, reads, activeBytes))).Always A
        (Scheduled A log mode) := by
  cases reads with
  | nil => exact Scheduled.finished h.within (hnone rfl) rfl
  | cons read others =>
      refine ⟨⟨h.within, ?_, fun _ _ heq => by cases heq⟩, Ends.all fun r => ?_⟩
      · rintro before object rest hp hread
        obtain rfl : pending = before ++ object :: rest := hp
        exact walkTurnPolled_inevitably (walkGraphPolled_inevitably hread fuel) h (by simp) hfuel
      match r with
      | .error e => exact Scheduled.failed h.within
      | .ok i => exact endReadPolled_always ih h (getElem?_get (read :: others) i) hfuel

/-- Starting reads, in a loop whose turn goes on scheduled. -/
theorem startReadsPolled_always {fuel : Nat} {visited : Visited}
    (ih : ∀ (walk : Walk) (reads : List GraphRead) (activeBytes : Nat),
      Budget log walk.pending reads activeBytes →
      log.workLeft walk.visited walk.pending reads ≤ fuel →
      (log.walkGraphPolled blocked mode fuel walk reads activeBytes).Always A
        (Scheduled A log mode)) :
    ∀ (pending : List ObjectRef) (reads : List GraphRead) (activeBytes : Nat),
      Budget log pending reads activeBytes → log.workLeft visited pending reads ≤ fuel + 1 →
      ((log.startReadsPolled mode pending reads activeBytes).bind (log.walkTurnPolled blocked
        visited (log.walkGraphPolled blocked mode fuel))).Always A (Scheduled A log mode)
  | [], reads, activeBytes, h, hfuel => walkTurnPolled_always ih h (fun _ => rfl) hfuel
  | head :: pending, reads, activeBytes, h, hfuel => by
      rcases startReadsPolled_cases mode h with
        ⟨hne, heq⟩ | ⟨hskip, heq⟩ | ⟨loop, hpending, -, hwithin, hbudget, heq⟩
      · rw [heq]
        exact walkTurnPolled_always ih h (fun hnone => absurd hnone hne) hfuel
      · rw [heq]
        refine startReadsPolled_always ih pending reads activeBytes h.skip ?_
        unfold Log.workLeft at hfuel ⊢
        rw [List.length_cons] at hfuel
        omega
      · rw [heq]
        have hwork : ∀ started, log.workLeft visited pending
            (reads ++ [(head.len.toNat, head, started)]) ≤ fuel + 1 := by
          intro started
          unfold Log.workLeft at hfuel ⊢
          simp only [List.length_append, List.length_cons, List.length_nil] at hfuel ⊢
          omega
        refine ⟨⟨hwithin, ?_, fun _ _ heq => by cases heq⟩, Ends.all fun r => ?_⟩
        · rintro before object rest hp hread
          change loop.pending = _ at hp
          rw [hpending] at hp
          refine .inr (Ends.all fun r => ?_)
          match r with
          | .error e => exact .inr ⟨e, rfl⟩
          | .ok started =>
              refine startReadsPolled_inevitably hread (fun loop e => ?_) pending before _ _
                (hbudget started) hp ?_
              · exact .inr ⟨e, rfl⟩
              intro before' reads' activeBytes' h' hne hle
              refine walkTurnPolled_inevitably (walkGraphPolled_inevitably hread fuel) h' hne ?_
              have hw := hwork started
              unfold Log.workLeft at hw ⊢
              rw [hp] at hw
              simp only [List.length_append, List.length_cons] at hw hle ⊢
              omega
        match r with
        | .error e => exact Scheduled.failed hwithin
        | .ok started => exact startReadsPolled_always ih pending _ _ (hbudget started) (hwork started)

/-- **The loop of a walk is scheduled** at every await and at its end. -/
theorem walkGraphPolled_always :
    ∀ (fuel : Nat) (walk : Walk) (reads : List GraphRead) (activeBytes : Nat),
      Budget log walk.pending reads activeBytes →
      log.workLeft walk.visited walk.pending reads ≤ fuel →
      (log.walkGraphPolled blocked mode fuel walk reads activeBytes).Always A
        (Scheduled A log mode)
  | 0, walk, reads, activeBytes, h, hfuel => by
      unfold Log.workLeft at hfuel
      refine Scheduled.finished h.within ?_ ?_
      · exact List.length_eq_zero_iff.1 (by simp only [WalkLoop.of]; omega)
      · exact List.length_eq_zero_iff.1 (by simp only [WalkLoop.of, List.length_map]; omega)
  | fuel + 1, walk, reads, activeBytes, h, hfuel =>
      startReadsPolled_always (walkGraphPolled_always fuel) walk.pending reads activeBytes h hfuel

/-! ## The future is the walk -/

omit [Blake3] in
theorem startReadsPolled_result : ∀ (pending : List ObjectRef) (reads : List GraphRead)
    (activeBytes : Nat), (log.startReadsPolled mode pending reads activeBytes).result =
      log.startReads mode pending reads activeBytes
  | [], reads, activeBytes => rfl
  | object :: pending, reads, activeBytes => by
      unfold Log.startReadsPolled Log.startReads
      split
      · rfl
      split
      · rw [startReadsPolled_result pending reads activeBytes]
      dsimp only
      split
      · rfl
      split
      · rfl
      rw [Future.result_awaiting fun e => rfl]
      exact congrArg (log.startChildren object >>= ·)
        (funext fun started => startReadsPolled_result pending _ _)

/-- **Polled to its end, the future is the walk.** -/
theorem walkGraphPolled_result : ∀ (fuel : Nat) (walk : Walk) (reads : List GraphRead)
    (activeBytes : Nat), (log.walkGraphPolled blocked mode fuel walk reads activeBytes).result =
      log.walkGraph blocked mode fuel walk reads activeBytes
  | 0, walk, reads, activeBytes => rfl
  | fuel + 1, walk, reads, activeBytes => by
      unfold Log.walkGraphPolled Log.walkGraph
      rw [← startReadsPolled_result]
      refine Future.result_bind (fun loop next => ?_) fun loop e => rfl
      obtain ⟨pending, reads', activeBytes'⟩ := next
      cases reads' with
      | nil => rfl
      | cons read rest =>
          refine (Future.result_awaiting fun e => rfl).trans ?_
          refine congrArg (choose rest.length >>= ·) (funext fun i => ?_)
          refine (Future.result_awaiting fun e => rfl).trans ?_
          refine congrArg (log.finishChildren _ _ >>= ·) (funext fun children => ?_)
          dsimp only
          cases hwalk : children.foldlM (log.enqueueObject blocked) ⟨walk.visited, pending⟩ with
          | error e => rfl
          | ok walk' => exact walkGraphPolled_result fuel walk' _ _

end ObjectLog
