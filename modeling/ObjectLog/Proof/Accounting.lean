import ObjectLog.Proof.Candidate
import ObjectLog.Proof.CollectOps

/-!
# Counting objects

A reference counts the paths under it, the collector counts keys. There are at most as
many keys as paths, so what was admitted by its count fits into the live set, however much
of it is shared.
-/

namespace ObjectLog

open Rely

variable [Blake3] {s : State} {t : Nat} {A : Effect → Prop} {log : Log} {view : View}
  {body : Bodies} {inc : Uuid} {opts : Options} {r : ObjectRef} {k : ImmutableKey}

/-! ## Keys and counts -/

/-- The count of a reference is one more than the sum of its children's counts. -/
theorem Stored.count (h : Stored body inc opts r) :
    (r.kind = .blob ∧ r.subtreeObjects = 1) ∨
    (r.kind = .node ∧ ∃ bytes n, body (objectKey inc r) = some bytes ∧
      decodeNode bytes opts = .ok n ∧ r.subtreeObjects.toNat = 1 + countOf n.children) := by
  cases h with
  | blob kind m =>
      have hc := m.counted
      simp only [ObjectRef.Counted, ObjectRef.validateCount, kind] at hc
      exact .inl ⟨kind, (by simpa using ensure_ok.1 hc : _ ∧ _).2⟩
  | node kind m hd hs _ => exact .inr ⟨kind, _, _, m.stored, hd, (subtreeObjects_ok hs).1⟩

/-- The keys under some references, listed once for each path. -/
theorem listed_keys (rs : List ObjectRef)
    (h : ∀ r ∈ rs, ∃ ks : List ImmutableKey, ks.length ≤ r.subtreeObjects.toNat ∧
      ∀ k, Under body inc opts r k → k ∈ ks) :
    ∃ ks : List ImmutableKey, ks.length ≤ countOf rs ∧
      ∀ r ∈ rs, ∀ k, Under body inc opts r k → k ∈ ks := by
  induction rs with
  | nil => exact ⟨[], le_rfl, nofun⟩
  | cons r rs ih =>
      obtain ⟨ks, hlen, hks⟩ := h r (by simp)
      obtain ⟨ks', hlen', hks'⟩ := ih fun x hx => h x (by simp [hx])
      refine ⟨ks ++ ks', ?_, ?_⟩
      · simp only [countOf, List.map_cons, List.sum_cons, List.length_append] at hlen' ⊢
        omega
      · intro x hx k hk
        rcases List.mem_cons.1 hx with rfl | hx
        · exact List.mem_append_left _ (hks k hk)
        · exact List.mem_append_right _ (hks' x hx k hk)

/-- A complete graph has no more paths than its root counts. -/
theorem Stored.keys (h : Stored body inc opts r) :
    ∃ ks : List ImmutableKey, ks.length ≤ r.subtreeObjects.toNat ∧
      ∀ k, Under body inc opts r k → k ∈ ks := by
  -- by induction over the graph: the key of the root, then those of the children
  induction h with
  | @blob r bytes kind m =>
      have hcount : 1 ≤ r.subtreeObjects.toNat := by
        rcases (Stored.blob kind m).count with ⟨-, hc⟩ | ⟨kind', -⟩
        · simp [hc]
        · rw [kind] at kind'
          cases kind'
      refine ⟨[objectKey inc r], hcount, fun k hk => ?_⟩
      cases hk with
      | self => exact List.mem_singleton.2 rfl
      | child kind' _ _ _ _ =>
          rw [kind] at kind'
          cases kind'
  | @node r bytes n kind m hd hs hc ih =>
      obtain ⟨ks, hlen, hks⟩ := listed_keys n.children ih
      have hcount : r.subtreeObjects.toNat = 1 + countOf n.children := (subtreeObjects_ok hs).1
      refine ⟨objectKey inc r :: ks, ?_, fun k hk => ?_⟩
      · rw [List.length_cons]
        omega
      · cases hk with
        | self => exact List.mem_cons_self
        | child _ hbytes hd' hcm hu =>
            obtain rfl := Option.some.inj (m.stored.symm.trans hbytes)
            obtain rfl := Except.ok.inj (hd.symm.trans hd')
            exact List.mem_cons_of_mem _ (hks _ hcm _ hu)

/-- **There are at most as many keys as the references count.** -/
theorem distinct_keys_le {rs : List ObjectRef} {ks : List ImmutableKey}
    (hs : ∀ r ∈ rs, Stored body inc opts r) (hn : ks.Nodup)
    (hks : ∀ k ∈ ks, ∃ r ∈ rs, Under body inc opts r k) : ks.length ≤ countOf rs := by
  obtain ⟨all, hlen, hall⟩ := listed_keys rs fun r hr => (hs r hr).keys
  have hsub : ks ⊆ all := by
    intro k hk
    obtain ⟨r, hr, hu⟩ := hks k hk
    exact hall r hr k hu
  exact (hn.subperm hsub).length_le.trans hlen

/-- Every reference counts at least itself. -/
theorem length_le_countOf {rs : List ObjectRef} (hs : ∀ r ∈ rs, Stored body inc opts r) :
    rs.length ≤ countOf rs := by
  induction rs with
  | nil => exact le_rfl
  | cons r rs ih =>
      have hpos : 1 ≤ r.subtreeObjects.toNat := by
        rcases (hs r (by simp)).count with ⟨-, hc⟩ | ⟨-, _, _, -, -, hc⟩
        · simp [hc]
        · omega
      have := ih fun x hx => hs x (by simp [hx])
      simp only [countOf, List.map_cons, List.sum_cons, List.length_cons] at this ⊢
      omega

/-! ## The live set of a compacted log -/

/-- What dependencies may count. -/
theorem Options.AllowDependencies.count {objects : List ObjectRef}
    (h : log.options.AllowDependencies objects) :
    1 + countOf objects ≤ log.options.maxCollectionObjects.toNat := by
  obtain ⟨-, -, n, hn⟩ := validateDependencies_ok.1 (h log rfl)
  simp only [Log.publicationObjects, bind_ok, ensure_ok, pure, Except.pure] at hn
  obtain ⟨count, hcount, ⟨⟩, hle, -⟩ := hn
  have hsum := (subtreeObjects_ok hcount).1
  rw [UInt64.le_iff_toNat_le] at hle
  unfold countOf
  omega

/-- Marking objects that the limit admits together with what is marked already. -/
theorem markObjectGraph_within {roots : List ObjectRef} {base : Visited} {G : ObjectRef → Prop}
    {mode : GraphWalk} (hA : Reads ≤ A) (g : Good s) (hG : s.GraphOK log G)
    (hroots : ∀ r ∈ roots, G r) (hbase : base.Of log G)
    (hfit : base.length + countOf roots ≤ log.options.maxCollectionObjects.toNat) :
    Runs t A (log.markObjectGraph roots base none mode)
      (fun r _ => ∀ what, r ≠ .error (.limitExceeded what)) s := by
  refine (markObjectGraph_sound hA g hG hroots hbase).mono ?_
  rintro (e | live) u gu h what hr
  · obtain rfl := Except.error.inj hr
    rcases h with h | (⟨h, -⟩ | ⟨-, hlt⟩) | ⟨r, -, hm, -⟩
    · rcases h with h | ⟨x, h⟩ <;> cases h
    · cases h
    · omega
    · rcases hm with h | h | h | h <;> cases h
  · cases hr

/-- **A compacted log is within the limit of the collector.** -/
theorem markLive_within (hA : Reads ≤ A) (g : Good s) (hv : Viewing s log view)
    (htail : view.head.tail = []) :
    Runs t A (log.markLive view) (fun r _ => ∀ what, r ≠ .error (.limitExceeded what)) s := by
  have hrecords : Runs t A (log.tailRecords view log.markCommit ([], []))
      (fun r _ => r = .ok ([], [])) s := by
    unfold Log.tailRecords
    rw [hv.checked g.inv, htail]
    exact Runs.pure fun _ _ _ => rfl
  refine Runs.bind le_rfl g hrecords ?_ nofun
  rintro ⟨live, roots⟩ u tr gu hlive
  obtain ⟨rfl, rfl⟩ := Prod.mk.inj (Except.ok.inj hlive)
  refine Runs.bind le_rfl gu (rememberTail_runs hA) ?_ nofun
  rintro - v tr₁ gv -
  have hv₁ := hv.mono (tr.le.trans tr₁.le)
  have hG := hv₁.graphOK gv
  cases hc : view.head.checkpoint with
  | none =>
      exact markObjectGraph_within hA gv hG nofun nofun (by simp [countOf])
  | some c =>
      obtain ⟨n, hh⟩ := hv₁.head
      obtain ⟨ck, hbody⟩ := (gv.inv.headStored hh).checkpoint c hc
      obtain ⟨e1, e2, e3⟩ := hv₁.same gv.inv
      -- the checkpoint was admitted with everything under it, and itself
      have hdeps := hbody.dependencies
      rw [e3] at hdeps
      have hcount := hdeps.count
      have hlen := length_le_countOf hbody.objects
      have hins : log.insertLive [] (objectKey log.incarnation c.object) c.object.len
          c.object.subtreeObjects =
          .ok [(objectKey log.incarnation c.object, c.object.len, c.object.subtreeObjects)] := by
        have hone : 1 ≤ log.options.maxCollectionObjects.toNat := by omega
        simp only [Log.insertLive, bind_ok, ensure_ok, pure, Except.pure]
        exact ⟨(), rfl, (), hone, rfl⟩
      refine Runs.liftBind (fun live hlive => ?_) fun e w he => ?_
      swap
      · rw [hins] at he
        cases he
      obtain rfl := Except.ok.inj (hins.symm.trans hlive)
      refine Runs.bind le_rfl gv (loadCheckpoint_runs hA gv hv₁.log c) ?_ ?_
      swap
      · intro e w tr₂ gw h what hr
        obtain rfl := Except.error.inj hr
        rcases h n _ _ ck hh hbody with h | ⟨hm, -⟩
        · rcases h with h | ⟨x, h⟩ <;> cases h
        · rcases hm with h | h | h | h <;> cases h
      rintro ck' w tr₂ gw ⟨bytes, hbytes, hdec⟩
      have hstored := tr₂.le.body _ _ hbody.stored
      rw [e2] at hstored
      obtain rfl := Option.some.inj (hstored.symm.trans hbytes)
      obtain rfl := Except.ok.inj (hdec.symm.trans
        (decodeCheckpointReference_ok (hbody.decodeReference e1 e2 e3)))
      have hadd : log.addRoots [] ck'.objects = .ok ck'.objects := by
        have hfits : ck'.objects.length ≤ log.options.maxCollectionObjects.toNat := by omega
        simp only [Log.addRoots, bind_ok, ensure_ok, pure, Except.pure]
        exact ⟨(), hfits, rfl⟩
      refine Runs.liftBind (fun roots hroots => ?_) fun e x he => ?_
      swap
      · rw [hadd] at he
        cases he
      obtain rfl := Except.ok.inj (hadd.symm.trans hroots)
      have hv₂ := hv₁.mono tr₂.le
      refine markObjectGraph_within hA gw (hv₂.graphOK gw) ?_ ?_ ?_
      · intro o ho
        exact .checkpointObject hc (tr₂.le.body _ _ hbody.stored) hbody.decode ho (.self o)
      · intro k m hk hkind
        have hkey : k = objectKey log.incarnation c.object := by
          rw [List.lookup_cons] at hk
          split at hk
          · exact beq_iff_eq.1 ‹_›
          · cases hk
        rw [hkey, show (objectKey log.incarnation c.object).kind = .checkpoint by
          simp [objectKey, hh.valid.baseKind c hc, ObjectKind.immutable]] at hkind
        rcases hkind with h | h <;> cases h
      · simpa using hcount

end ObjectLog
