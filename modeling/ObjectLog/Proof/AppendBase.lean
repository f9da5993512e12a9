import ObjectLog.Proof.Candidate

/-!
# The base of a checkpoint

A checkpoint is published on a head that has the base of the view it was made on, where the
tail may have grown at its end. Such heads form an interval of the run, the checkpoint leaves
it for good when it is installed, and so a head outside of it decides for good whether the
checkpoint was published.
-/

set_option linter.unusedSectionVars false

namespace ObjectLog

variable [Blake3] {s s' : State} {t i j k m n : Nat} {h h' h₁ h₂ h₃ : Head}
  {v v' v₁ v₂ v₃ : UpdateVersion} {c : CheckpointRef} {through : CommitRef} {source : View}

/-! ## Heads with the base of a checkpoint -/

/-- Only the generation and the retentions differ, and the tail may have grown. -/
def AppendBase (h h' : Head) : Prop := h.hasCheckpointAppendBase h' = true

theorem checkedAdd_iff {a b c : UInt64} :
    checkedAdd a b = some c ↔ c.toNat = a.toNat + b.toNat := by
  refine ⟨checkedAdd_toNat, fun h => ?_⟩
  have hlt := UInt64.toNat_lt c
  unfold checkedAdd
  rw [if_pos (by omega)]
  congr 1
  apply UInt64.toNat.inj
  rw [UInt64.toNat_add, h, Nat.mod_eq_of_lt (by omega)]

theorem toU64_iff {n : Nat} {x : UInt64} : toU64 n = some x ↔ x.toNat = n := by
  refine ⟨toU64_toNat, fun h => ?_⟩
  subst h
  have hlt := UInt64.toNat_lt x
  simpa [toU64] using hlt

theorem appendBase_iff : AppendBase h h' ↔ h.tail <+: h'.tail ∧ h.logId = h'.logId ∧
    h.incarnation = h'.incarnation ∧ h.options = h'.options ∧ h.checkpoint = h'.checkpoint ∧
    h.recentOutcomes = h'.recentOutcomes ∧ h.collectionEpoch = h'.collectionEpoch ∧
    h.activePlan = h'.activePlan ∧
    h'.nextSequence.toNat = h.nextSequence.toNat + (h'.tail.length - h.tail.length) := by
  have hnext : ((toU64 (h'.tail.drop h.tail.length).length).bind fun count =>
      checkedAdd h.nextSequence count) = some h'.nextSequence ↔
      h'.nextSequence.toNat = h.nextSequence.toNat + (h'.tail.length - h.tail.length) := by
    rw [Option.bind_eq_some_iff, List.length_drop]
    constructor
    · rintro ⟨count, hc, hn⟩
      rw [checkedAdd_iff.1 hn, toU64_iff.1 hc]
    · intro hn
      have hlt : h'.nextSequence.toNat < UInt64.size := UInt64.toNat_lt h'.nextSequence
      have hcount : (UInt64.ofNat (h'.tail.length - h.tail.length)).toNat =
          h'.tail.length - h.tail.length := UInt64.toNat_ofNat_of_lt' (by omega)
      exact ⟨_, toU64_iff.2 hcount, checkedAdd_iff.2 (by rw [hcount]; exact hn)⟩
  unfold AppendBase Head.hasCheckpointAppendBase
  simp only [Bool.and_eq_true, beq_iff_eq, List.isPrefixOf_iff_prefix, and_assoc, hnext]

theorem AppendBase.refl (h : Head) : AppendBase h h :=
  appendBase_iff.2 ⟨List.prefix_rfl, rfl, rfl, rfl, rfl, rfl, rfl, rfl, by omega⟩

theorem AppendBase.trans (a : AppendBase h₁ h₂) (b : AppendBase h₂ h₃) : AppendBase h₁ h₃ := by
  obtain ⟨a1, a2, a3, a4, a5, a6, a7, a8, a9⟩ := appendBase_iff.1 a
  obtain ⟨b1, b2, b3, b4, b5, b6, b7, b8, b9⟩ := appendBase_iff.1 b
  have ha := a1.length_le
  have hb := b1.length_le
  exact appendBase_iff.2 ⟨a1.trans b1, a2.trans b2, a3.trans b3, a4.trans b4, a5.trans b5,
    a6.trans b6, a7.trans b7, a8.trans b8, by omega⟩

theorem SameBase.appendBase (hs : SameBase h h') : AppendBase h h' := by
  obtain ⟨h1, h2, h3, h4, h5, h6, h7, h8, h9⟩ := sameBase_iff.1 hs
  have hnext : h'.nextSequence.toNat =
      h.nextSequence.toNat + (h'.tail.length - h.tail.length) := by
    rw [h4, h6]
    omega
  exact appendBase_iff.2 ⟨h6 ▸ List.prefix_rfl, h1, h2, h3, h5, h7, h8, h9, hnext⟩

/-! ## An interval of the run -/

/-- What every change other than an append and a retention moves up. -/
def Head.frame (h : Head) : Nat :=
  h.start + 2 * h.collectionEpoch.toNat + if h.activePlan.isSome then 0 else 1

theorem AppendBase.frame (hs : AppendBase h h') : h.frame = h'.frame := by
  obtain ⟨-, -, -, -, h5, -, h7, h8, -⟩ := appendBase_iff.1 hs
  simp only [Head.frame, Head.start, h5, h7, h8]

/-- A checkpoint moves the first sequence of the tail up. -/
theorem Change.Result.checkpoint_frame {object : ObjectRef} (hv : h.Valid)
    (hr : (Change.checkpoint through object).Result h h') : h.frame < h'.frame := by
  cases hr with
  | checkpoint hgen hi =>
      have hseq := hv.tail _ through hi
      simp only [Head.frame]
      have hlt : h.start < through.sequence.toNat + 1 := by omega
      simp only [Head.start] at hlt ⊢
      omega

theorem Change.Result.frame {d : Change} (hv : h.Valid) (hr : d.Result h h') (hg : d.Guard h) :
    (AppendBase h h' ∧ h.frame = h'.frame) ∨ h.frame < h'.frame := by
  cases d with
  | append commit =>
      left
      cases hr with
      | append hgen hn =>
          refine ⟨appendBase_iff.2
            ⟨List.prefix_append _ _, rfl, rfl, rfl, rfl, rfl, rfl, rfl, ?_⟩, rfl⟩
          rw [checkedAdd_toNat hn, List.length_append, Nat.add_sub_cancel_left]
          rfl
  | checkpoint through object => exact .inr (hr.checkpoint_frame hv)
  | retention change =>
      have hs : SameBase h h' := by
        cases hr
        cases change <;> exact sameBase_iff.2 ⟨rfl, rfl, rfl, rfl, rfl, rfl, rfl, rfl, rfl⟩
      exact .inl ⟨hs.appendBase, hs.appendBase.frame⟩
  | install plan =>
      right
      cases hr with
      | install hgen he =>
          have hepoch := checkedAdd_toNat he
          have h1 : (1 : UInt64).toNat = 1 := rfl
          simp only [Head.frame, Head.start, hg.1, Option.isSome_none, Option.isSome_some,
            Bool.false_eq_true, if_false, if_true]
          omega
  | clear =>
      right
      cases hr with
      | clear hgen =>
          have hsome : h.activePlan.isSome = true := hg
          simp only [Head.frame, Head.start, hsome, Option.isSome_none, Bool.false_eq_true,
            if_false, if_true]
          omega

theorem Inv.frame_mono (inv : Inv s) (hij : i ≤ j) (a : s.HeadAt i h v) (b : s.HeadAt j h' v') :
    (AppendBase h h' ∧ h.frame = h'.frame) ∨ h.frame < h'.frame := by
  induction j generalizing h' v' with
  | zero =>
      obtain rfl : i = 0 := by omega
      obtain ⟨rfl, -⟩ := a.unique b
      exact .inl ⟨.refl h, rfl⟩
  | succ j ih =>
      rcases Nat.lt_or_ge j i with hlt | hge
      · obtain rfl : i = j + 1 := by omega
        obtain ⟨rfl, -⟩ := a.unique b
        exact .inl ⟨.refl h, rfl⟩
      · obtain ⟨g, w, hg⟩ := inv.headAt (i := j) (by have := b.lt; omega)
        obtain ⟨t, c, hr⟩ := inv.replaces hg b
        rcases ih hge hg with ⟨hs, he⟩ | hlt <;>
          rcases hr.result.frame hg.valid hr.guard with ⟨hs', he'⟩ | hlt'
        · exact .inl ⟨hs.trans hs', he.trans he'⟩
        · exact .inr (by omega)
        · exact .inr (by omega)
        · exact .inr (by omega)

/-- **The base of a checkpoint that was lost does not come back.** -/
theorem Inv.append_convex (inv : Inv s) (hij : i ≤ j) (hjk : j ≤ k) (a : s.HeadAt i h₁ v₁)
    (b : s.HeadAt j h₂ v₂) (d : s.HeadAt k h₃ v₃) (hs : AppendBase h₁ h₃) :
    AppendBase h₁ h₂ := by
  have hf := hs.frame
  rcases inv.frame_mono hij a b with ⟨hb, -⟩ | hlt
  · exact hb
  · rcases inv.frame_mono hjk b d with ⟨-, he⟩ | hlt' <;> omega

/-! ## Installed checkpoints -/

theorem State.CheckpointOf.unique {through' : CommitRef} {source' : View} (inv : Inv s)
    (a : s.CheckpointOf c through source) (b : s.CheckpointOf c through' source') :
    source = source' ∧ through = through' := by
  obtain ⟨q, d, log, snapshot, objects, hd, hcall, hid, -⟩ := a
  obtain ⟨q', d', log', snapshot', objects', hd', hcall', hid', -⟩ := b
  obtain rfl := inv.owner _ _ _ hid hid'
  obtain rfl := Option.some.inj (hd.symm.trans hd')
  have heq := hcall.symm.trans hcall'
  injection heq with _ hs ht
  exact ⟨hs, ht⟩

/-- A checkpoint has been put on a head: it covers the tail of that head up to `through`, and
what follows stays in the tail. -/
def State.Shown (s : State) (through : CommitRef) (c : CheckpointRef) : Prop :=
  ∃ i h v h' v', s.HeadAt i h v ∧ s.HeadAt (i + 1) h' v' ∧
    (Change.checkpoint through c.object).Result h h' ∧ h'.checkpoint = some c

/-- The checkpoint is on no head up to moment `m`. -/
def State.Unshown (s : State) (m : Nat) (c : CheckpointRef) : Prop :=
  ∀ j h v, j ≤ m → s.HeadAt j h v → h.checkpoint ≠ some c

theorem State.Shown.mono (hle : s.Le s') (hs : s.Shown through c) : s'.Shown through c := by
  obtain ⟨i, h, v, h', v', a, b, hr, hc⟩ := hs
  exact ⟨i, h, v, h', v', a.mono hle, b.mono hle, hr, hc⟩

/-- The checkpoint of a head was installed before it. -/
theorem Inv.checkpoint_link (inv : Inv s) (hh : s.HeadAt k h v) (hc : h.checkpoint = some c) :
    ∃ i h₀ v₀ h' v' t through, i < k ∧ s.HeadAt i h₀ v₀ ∧ s.HeadAt (i + 1) h' v' ∧
      s.Replaces t (i + 1) i h₀ h' (.checkpoint through c.object) ∧
      c = ⟨through.sequence, through.digest, c.object⟩ := by
  induction k generalizing h v with
  | zero =>
      obtain ⟨inc, opts, rfl⟩ := inv.first h v hh
      cases hc
  | succ k ih =>
      obtain ⟨g, w, hg⟩ := inv.headAt (i := k) (by have := hh.lt; omega)
      obtain ⟨t, d, hr⟩ := inv.replaces hg hh
      rcases hr.result.records with
        ⟨_, -, -, he⟩ | ⟨through, object, _, rfl, -, -, he⟩ | ⟨-, -, -, he⟩
      · obtain ⟨i, h₀, v₀, h', v', t', through, hi, hrest⟩ := ih hg (he ▸ hc)
        exact ⟨i, h₀, v₀, h', v', t', through, by omega, hrest⟩
      · obtain rfl := Option.some.inj (he.symm.trans hc)
        exact ⟨k, g, w, h, v, t, through, by omega, hg, hh, hr, rfl⟩
      · obtain ⟨i, h₀, v₀, h', v', t', through, hi, hrest⟩ := ih hg (he ▸ hc)
        exact ⟨i, h₀, v₀, h', v', t', through, by omega, hrest⟩

/-- The head a checkpoint was put on has the base of the view it was made on. -/
theorem Inv.checkpoint_base (inv : Inv s) (ho : s.CheckpointOf c through source)
    (hh : s.HeadAt k h v) (hc : h.checkpoint = some c) :
    ∃ i₀ i h₀ v₀ h' v', i₀ ≤ i ∧ i < k ∧ s.HeadAt i₀ source.head source.version ∧
      s.HeadAt i h₀ v₀ ∧ AppendBase source.head h₀ ∧ s.HeadAt (i + 1) h' v' ∧
      (Change.checkpoint through c.object).Result h₀ h' ∧ h'.checkpoint = some c := by
  obtain ⟨i, h₀, v₀, h', v', t, through', hi, hh₀, hh', hr, hce⟩ := inv.checkpoint_link hh hc
  obtain ⟨⟨-, source', i₀, ho', hs, hle, hb⟩, -⟩ := hr.justified
  rw [← hce] at ho'
  obtain ⟨rfl, rfl⟩ := ho.unique inv ho'
  refine ⟨i₀, i, h₀, v₀, h', v', hle, hi, hs, hh₀, hb, hh', hr.result, ?_⟩
  have hres := hr.result
  cases hres with
  | checkpoint hgen hidx => exact congrArg some hce.symm

theorem Inv.shown (inv : Inv s) (ho : s.CheckpointOf c through source) (hh : s.HeadAt k h v)
    (hc : h.checkpoint = some c) : s.Shown through c := by
  obtain ⟨-, i, h₀, v₀, h', v', -, -, -, hh₀, -, hh', hres, hc'⟩ := inv.checkpoint_base ho hh hc
  exact ⟨i, h₀, v₀, h', v', hh₀, hh', hres, hc'⟩

/-- **As long as a head has the base of a checkpoint, the checkpoint is not published.** -/
theorem Inv.append_unshown (inv : Inv s) (ho : s.CheckpointOf c through source)
    (hm : s.HeadAt m h v) (hb : AppendBase source.head h) : s.Unshown m c := by
  intro j hd w hj hh hc
  obtain ⟨i₀, i, h₀, v₀, h', v', hi₀, hi, hs, hh₀, hb₀, hh', hres, -⟩ :=
    inv.checkpoint_base ho hh hc
  -- the installation has moved the frame past that of the view
  have hframe := hb.frame
  have hframe₀ := hb₀.frame
  have hstep := hres.checkpoint_frame hh₀.valid
  rcases inv.frame_mono (by omega : i + 1 ≤ m) hh' hm with ⟨-, he⟩ | hlt <;> omega

/-- **A checkpoint that is not published when its base is gone never is.** -/
theorem Inv.lost_append (inv : Inv s) (ho : s.CheckpointOf c through source)
    (hs : s.HeadAt i source.head source.version) (him : i ≤ m) (hm : s.HeadAt m h v)
    (hno : ¬ AppendBase source.head h) (hun : s.Unshown m c) : s.Unshown n c := by
  intro j hd w _ hh hc
  obtain ⟨-, k, h₀, v₀, h', v', -, -, -, hh₀, hb₀, hh', -, hc'⟩ := inv.checkpoint_base ho hh hc
  rcases Nat.lt_or_ge k m with hlt | hge
  · exact hun (k + 1) h' v' (by omega) hh' hc'
  · exact hno (inv.append_convex him hge hs hm hh₀ hb₀)

end ObjectLog
