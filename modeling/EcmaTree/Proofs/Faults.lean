import EcmaTree.Proofs.Sources

/-!
# Faults of the source

When a read meets an interruption, it is forgotten and reading goes on, so that it
makes no difference whether it was there.  Any other fault ends the read and is
reported as it is, and what has been read by then are the bytes before its
offset.

Both facts are about a read of some bytes at first.  They are kept when reads
are put together, so they pass to the items of a value and from these, along
the walk over the stacks of frames, to whole values and to several of them.
-/

namespace EcmaTree

namespace Source

/-! ## Reading in two parts -/

theorem takePlain_add
    {unread : List UInt8} {r : Nat} (hthere : r ≤ unread.length) (position n : Nat)
    (faults : List (Nat × Fault)) :
    takePlain ⟨unread, position, faults⟩ (r + n) =
      precede (unread.take r) (takePlain ⟨unread.drop r, position + r, faults⟩ n) := by
  simp only [takePlain, List.length_take, List.length_drop]
  by_cases henough : r + n ≤ unread.length
  · rw [if_pos (by omega), if_pos (by omega), List.take_add, List.drop_drop, Nat.add_assoc]
    rfl
  · have hposition : position + min (r + n) unread.length =
        position + r + min n (unread.length - r) := by
      omega
    rw [if_neg (by omega), if_neg (by omega), hposition]
    rfl

/-- A read may be made in two parts, the first of which meets no fault. -/
theorem take_add
    {unread : List UInt8} {position r : Nat} {faults : List (Nat × Fault)} (n : Nat)
    (hthere : r ≤ unread.length) (hfaults : ∀ f ∈ faults, r ≤ f.1 - position) :
    (⟨unread, position, faults⟩ : Source).take (r + n) =
      precede (unread.take r) ((⟨unread.drop r, position + r, faults⟩ : Source).take n) := by
  rcases faults with _ | ⟨⟨offset, fault⟩, faults⟩
  · exact takePlain_add hthere position n []
  · have hbehind : r ≤ offset - position := hfaults _ List.mem_cons_self
    obtain ⟨room, hroom⟩ := Nat.exists_eq_add_of_le hbehind
    -- Seen from behind the first part, the fault is nearer by as many bytes.
    have hroom' : offset - (position + r) = room := by
      omega
    have hlength : (unread.drop r).length = unread.length - r := List.length_drop
    by_cases hmet : room < n ∧ r + room ≤ unread.length
    · obtain ⟨hwanted, hreached⟩ := hmet
      by_cases hkind : fault.kind = .interrupted
      · rw [take_of_interrupted faults hroom hkind (by omega) hreached,
          take_of_interrupted faults hroom' hkind hwanted (by omega), precede_precede,
          ← List.take_add, List.drop_drop, Nat.add_assoc, Nat.add_sub_add_left]
      · rw [take_of_fault faults hroom hkind (by omega) hreached,
          take_of_fault faults hroom' hkind hwanted (by omega), List.drop_drop, Nat.add_assoc]
        rfl
    · rw [take_of_far faults hroom (by omega), take_of_far faults hroom' (by omega)]
      exact takePlain_add hthere position n _

/-! ## Reading past interruptions -/

/-- The faults ahead lie in the order of their offsets. -/
def InOrder (source : Source) : Prop :=
  source.faults.Pairwise fun f g => f.1 ≤ g.1

/-- A source without its interruptions. -/
def calm (source : Source) : Source :=
  { source with faults := source.faults.filter fun f => f.2.kind ≠ .interrupted }

theorem calm_cons_of_interrupted
    {fault : Fault} (hkind : fault.kind = .interrupted) (unread : List UInt8)
    (position offset : Nat) (faults : List (Nat × Fault)) :
    (⟨unread, position, (offset, fault) :: faults⟩ : Source).calm =
      (⟨unread, position, faults⟩ : Source).calm := by
  simp [calm, hkind]

theorem calm_cons_of_ne_interrupted
    {fault : Fault} (hkind : fault.kind ≠ .interrupted) (unread : List UInt8)
    (position offset : Nat) (faults : List (Nat × Fault)) :
    (⟨unread, position, (offset, fault) :: faults⟩ : Source).calm =
      ⟨unread, position, (offset, fault) :: (⟨unread, position, faults⟩ : Source).calm.faults⟩ := by
  simp [calm, hkind]

theorem takePlain_calm (source : Source) (n : Nat) :
    source.calm.takePlain n = Prod.map id calm (source.takePlain n) := by
  by_cases hlength : (source.unread.take n).length = n
  · have hcalm : (source.calm.unread.take n).length = n := hlength
    simp only [takePlain, if_pos hlength, if_pos hcalm]
    rfl
  · have hcalm : (source.calm.unread.take n).length ≠ n := hlength
    simp only [takePlain, if_neg hlength, if_neg hcalm]
    rfl

/-- A read comes to the same without the interruptions. -/
theorem take_calm
    {source : Source} (horder : source.InOrder) (n : Nat) :
    source.calm.take n = Prod.map id calm (source.take n) := by
  obtain ⟨unread, position, faults⟩ := source
  induction faults generalizing unread position n with
  | nil => exact takePlain_calm _ n
  | cons head faults ih =>
      obtain ⟨offset, fault⟩ := head
      obtain ⟨hfirst, hrest⟩ := List.pairwise_cons.mp horder
      generalize hroom : offset - position = room
      by_cases hmet : room < n ∧ room ≤ unread.length
      · obtain ⟨hwanted, hthere⟩ := hmet
        by_cases hkind : fault.kind = .interrupted
        · -- Without the interruption the two parts of the read are one.
          have hbehind : ∀ f ∈ (⟨unread, position, faults⟩ : Source).calm.faults,
              room ≤ f.1 - position := by
            intro f hf
            have hle := hfirst f (List.mem_filter.mp hf).1
            omega
          have hsplit := take_add (n - room) hthere hbehind
          rw [Nat.add_sub_cancel' (Nat.le_of_lt hwanted)] at hsplit
          rw [calm_cons_of_interrupted hkind, take_of_interrupted faults hroom hkind hwanted hthere]
          refine hsplit.trans ?_
          have hlast := ih (n - room) (unread.drop room) (position + room) hrest
          exact congrArg (precede (unread.take room)) hlast
        · rw [calm_cons_of_ne_interrupted hkind, take_of_fault _ hroom hkind hwanted hthere,
            take_of_fault _ hroom hkind hwanted hthere]
          rfl
      · have hfar : ∀ f ∈ (⟨unread, position, (offset, fault) :: faults⟩ : Source).calm.faults,
            n ≤ f.1 - position ∨ unread.length < f.1 - position := by
          intro f hf
          have hle : offset ≤ f.1 := by
            rcases List.mem_cons.mp (List.mem_filter.mp hf).1 with rfl | hmem
            · exact Nat.le_refl _
            · exact hfirst f hmem
          omega
        rw [take_of_far faults hroom (by omega), take_of_all_far hfar]
        exact takePlain_calm _ n

theorem takePlain_faults_suffix (source : Source) (n : Nat) :
    (source.takePlain n).2.faults <:+ source.faults := by
  simp only [takePlain]
  split
  · exact List.suffix_refl _
  · exact List.suffix_refl _

/-- A read takes away the faults that it meets, which are the first ones. -/
theorem take_faults_suffix (source : Source) (n : Nat) :
    (source.take n).2.faults <:+ source.faults := by
  obtain ⟨unread, position, faults⟩ := source
  induction faults generalizing unread position n with
  | nil =>
      rw [take_of_all_far (by simp)]
      exact takePlain_faults_suffix _ n
  | cons head faults ih =>
      obtain ⟨offset, fault⟩ := head
      generalize hroom : offset - position = room
      by_cases hmet : room < n ∧ room ≤ unread.length
      · obtain ⟨hwanted, hthere⟩ := hmet
        by_cases hkind : fault.kind = .interrupted
        · rw [take_of_interrupted faults hroom hkind hwanted hthere]
          have hlater := ih (n - room) (unread.drop room) (position + room)
          exact hlater.trans (List.suffix_cons _ _)
        · rw [take_of_fault faults hroom hkind hwanted hthere]
          exact List.suffix_cons _ _
      · rw [take_of_far faults hroom (by omega)]
        exact takePlain_faults_suffix _ n

theorem InOrder.take
    {source : Source} (horder : source.InOrder) (n : Nat) :
    (source.take n).2.InOrder :=
  horder.sublist (source.take_faults_suffix n).sublist

end Source

namespace Decoder

/-! ## Runs without interruptions -/

/-- On faults in order, interruptions make no difference. -/
theorem respects_calm (n : Nat) :
    Respects Source.calm Source.InOrder (fun _ => False) (takeBytes n) := by
  intro source horder
  have hlater := horder.take n
  have hcalm := Source.take_calm horder n
  simp only [takeBytes, hcalm]
  generalize source.take n = outcome at hlater ⊢
  obtain ⟨fault | bytes, source'⟩ := outcome
  · exact ⟨hlater, .inr rfl⟩
  · exact ⟨hlater, rfl⟩

theorem run_calm
    {bound : Nat} {stack : List Frame} {source : Source} (horder : source.InOrder) :
    (run bound stack source).2.InOrder ∧
      run bound stack source.calm = Prod.map id Source.calm (run bound stack source) := by
  obtain ⟨hlater, ⟨_, hexcused, _⟩ | hsame⟩ := run_change respects_calm horder
  · exact hexcused.elim
  · exact ⟨hlater, hsame⟩

/-! ## Steps up to a fault -/

/-- A computation that, wherever it reads some bytes without faults, does the same
with a fault behind these bytes, and reports a fault among them where it is. -/
def ReportsFaults {α : Type} (m : Decode α) : Prop :=
  ∀ {data : List UInt8} {position : Nat} {a : α} {source : Source},
    m ⟨data, position, []⟩ = .ok a source →
      ∃ k ≤ data.length, source = ⟨data.drop k, position + k, []⟩ ∧
        ∀ (room : Nat) (fault : Fault) (more : List (Nat × Fault)), fault.kind ≠ .interrupted →
          m ⟨data, position, (position + room, fault) :: more⟩ =
            if k ≤ room then .ok a ⟨data.drop k, position + k, (position + room, fault) :: more⟩
            else .error (.ofFault fault) ⟨data.drop room, position + room, more⟩

theorem reportsFaults_pure {α : Type} (a : α) : ReportsFaults (pure a : Decode α) := by
  intro data position b source h
  cases h
  refine ⟨0, Nat.zero_le _, rfl, ?_⟩
  intro room fault more _
  rw [if_pos (Nat.zero_le room)]
  rfl

theorem reportsFaults_bind
    {α β : Type} {m : Decode α} {f : α → Decode β}
    (hm : ReportsFaults m) (hf : ∀ a, ReportsFaults (f a)) :
    ReportsFaults (m >>= f) := by
  intro data position b source h
  simp only [bind, EStateM.bind] at h ⊢
  cases hrun : m ⟨data, position, []⟩ with
  | error error source' =>
      rw [hrun] at h
      cases h
  | ok a source' =>
      rw [hrun] at h
      obtain ⟨k, hk, rfl, hfirst⟩ := hm hrun
      obtain ⟨l, hl, rfl, hsecond⟩ := hf a h
      rw [List.length_drop] at hl
      refine ⟨k + l, by omega, by rw [List.drop_drop, Nat.add_assoc], ?_⟩
      intro room fault more hkind
      rw [hfirst room fault more hkind]
      by_cases hroom : k ≤ room
      · have hoffset : position + k + (room - k) = position + room := by
          omega
        have hrest := hsecond (room - k) fault more hkind
        rw [hoffset] at hrest
        rw [if_pos hroom]
        simp only [hrest, List.drop_drop, Nat.add_sub_cancel' hroom, Nat.add_assoc,
          Nat.le_sub_iff_add_le' hroom]
      · rw [if_neg hroom, if_neg (by omega)]

theorem reportsFaults_takeBytes (n : Nat) : ReportsFaults (takeBytes n) := by
  intro data position bytes source h
  obtain ⟨c, rest, ⟨rfl, rfl⟩, rfl, rfl⟩ := (recognizes_takeBytes n _ _ _ _).mp h
  have hlength : c.length ≤ (c ++ rest).length := by
    rw [List.length_append]
    exact Nat.le_add_right _ _
  refine ⟨c.length, hlength, by rw [List.drop_left], ?_⟩
  intro room fault more hkind
  have hoffset : position + room - position = room := Nat.add_sub_cancel_left _ _
  by_cases hroom : c.length ≤ room
  · rw [if_pos hroom, takeBytes, Source.take_of_far more hoffset (.inl hroom)]
    simp [Source.takePlain]
  · rw [if_neg hroom, takeBytes,
      Source.take_of_fault more hoffset hkind (by omega) (by omega)]

theorem compositional_reportsFaults : Compositional ReportsFaults where
  pure := reportsFaults_pure
  throw _ _ _ _ _ h := by cases h
  bind := reportsFaults_bind
  takeBytes := reportsFaults_takeBytes

/-- A step with a fault ahead, where without it the step reads the bytes `c`. -/
theorem step_of_advances
    {bound : Nat} {stack : List Frame} {c : List UInt8} {next : Progress}
    (h : Advances bound stack c next) (rest : List UInt8) (position room : Nat) {fault : Fault}
    (hkind : fault.kind ≠ .interrupted) (more : List (Nat × Fault)) :
    step bound stack ⟨c ++ rest, position, (position + room, fault) :: more⟩ =
      if c.length ≤ room then
        .ok next ⟨rest, position + c.length, (position + room, fault) :: more⟩
      else .error (.ofFault fault) ⟨(c ++ rest).drop room, position + room, more⟩ := by
  have hstep : step bound stack ⟨c ++ rest, position, []⟩ =
      .ok next ⟨rest, position + c.length, []⟩ :=
    (recognizes_step bound stack _ _ _ _).mpr ⟨c, rest, h, rfl, rfl⟩
  obtain ⟨k, -, hsource, hfault⟩ := compositional_reportsFaults.step bound stack hstep
  obtain rfl : c.length = k := by
    have hposition := congrArg Source.position hsource
    exact Nat.add_left_cancel hposition
  rw [hfault room fault more hkind, List.drop_left]

/-- A walk with a fault ahead is followed to its end or to the fault. -/
theorem resume_of_leads_of_fault
    {bound : Nat} {progress : Progress} {c : List UInt8} {v : Value}
    (h : Leads bound progress c (.finished v)) (rest : List UInt8) (position room : Nat)
    {fault : Fault} (hkind : fault.kind ≠ .interrupted) (more : List (Nat × Fault)) :
    resume bound progress ⟨c ++ rest, position, (position + room, fault) :: more⟩ =
      if c.length ≤ room then
        (.ok v, ⟨rest, position + c.length, (position + room, fault) :: more⟩)
      else (.error (.ofFault fault), ⟨(c ++ rest).drop room, position + room, more⟩) := by
  generalize hlast : Progress.finished v = last at h
  induction h generalizing position room with
  | refl =>
      subst hlast
      exact (if_pos (Nat.zero_le room)).symm
  | @step stack c d next last hstep hrest ih =>
      have hread := step_of_advances hstep (d ++ rest) position room hkind more
      rw [List.append_assoc, resume, List.length_append]
      by_cases hroom : c.length ≤ room
      · have hoffset : position + c.length + (room - c.length) = position + room := by
          omega
        have hwalk := ih (position + c.length) (room - c.length) hlast
        rw [if_pos hroom] at hread
        rw [hoffset] at hwalk
        rw [run_of_step_ok hread, hwalk]
        simp only [Nat.le_sub_iff_add_le' hroom, Nat.add_assoc,
          List.drop_append, List.drop_of_length_le hroom, List.nil_append]
      · rw [if_neg hroom] at hread
        rw [run_of_step_error hread, if_neg (by omega)]

end Decoder

namespace Source

/-! ## Values -/

theorem decodeTimes_succ (source : Source) (bound n : Nat) :
    source.decodeTimes bound (n + 1) =
      ((source.decode bound).1 :: ((source.decode bound).2.decodeTimes bound n).1,
        ((source.decode bound).2.decodeTimes bound n).2) :=
  rfl

theorem decode_calm
    {source : Source} (horder : source.InOrder) (bound : Nat) :
    (source.decode bound).2.InOrder ∧
      source.calm.decode bound = Prod.map id calm (source.decode bound) :=
  Decoder.run_calm horder

theorem decodeTimes_calm
    {source : Source} (horder : source.InOrder) (bound n : Nat) :
    source.calm.decodeTimes bound n = Prod.map id calm (source.decodeTimes bound n) := by
  induction n generalizing source with
  | zero => rfl
  | succ n ih =>
      obtain ⟨hlater, hcalm⟩ := decode_calm horder bound
      rw [decodeTimes_succ, decodeTimes_succ, hcalm, Prod.map_fst, Prod.map_snd, ih hlater]
      rfl

/-- Faults are passed over or passed on.  Without its interruptions a source
gives the same values and errors, in any number of reads, and has the same bytes
left.  Where a value of `k` bytes is read without faults, a fault of another kind
behind these bytes changes nothing; and if it comes earlier, then it is the
error, and just the bytes before it are read. -/
theorem decode_transparent_or_verbatim (bound : Nat) :
    (∀ source : Source, source.InOrder → ∀ n : Nat,
      (source.calm.decodeTimes bound n).1 = (source.decodeTimes bound n).1 ∧
      (source.calm.decodeTimes bound n).2.unread = (source.decodeTimes bound n).2.unread) ∧
    ∀ (data : List UInt8) (position : Nat) (v : Value) (source : Source),
      (⟨data, position, []⟩ : Source).decode bound = (.ok v, source) →
        ∃ k ≤ data.length, source = ⟨data.drop k, position + k, []⟩ ∧
          ∀ (o : Nat) (fault : Fault) (more : List (Nat × Fault)), fault.kind ≠ .interrupted →
            (k ≤ o →
              (⟨data, position, (position + o, fault) :: more⟩ : Source).decode bound =
                (.ok v, ⟨data.drop k, position + k, (position + o, fault) :: more⟩)) ∧
            (o < k →
              (⟨data, position, (position + o, fault) :: more⟩ : Source).decode bound =
                (.error (if fault.kind = .unexpectedEof then .unexpectedEnd else .source fault),
                  ⟨data.drop o, position + o, more⟩)) := by
  constructor
  · intro source horder n
    rw [decodeTimes_calm horder]
    exact ⟨rfl, rfl⟩
  · intro data position v source h
    obtain ⟨c, rest, hleads, rfl, rfl⟩ := Decoder.exists_leads_of_run h
    have hlength : c.length ≤ (c ++ rest).length := by
      rw [List.length_append]
      exact Nat.le_add_right _ _
    refine ⟨c.length, hlength, by rw [List.drop_left], ?_⟩
    intro o fault more hkind
    have hwalk := Decoder.resume_of_leads_of_fault hleads rest position o hkind more
    rw [List.drop_left]
    constructor
    · intro hbehind
      rw [if_pos hbehind] at hwalk
      exact hwalk
    · intro hbefore
      rw [if_neg (Nat.not_le.mpr hbefore)] at hwalk
      exact hwalk

/-- Two interruptions inside an array are passed over, one of them in the middle
of a length, and a fault inside a text is passed on; the next read then starts
in the middle of a character. -/
theorem decode_transparent_or_verbatim_text :
    let data : List UInt8 := [0x5B, 0x53, 0x6C, 2, 0, 0, 0, 0xC3, 0xA9, 0x5D]
    let slow : Fault := ⟨.other "TimedOut", "slow"⟩
    let source : Source := ⟨data, 0, [(1, ⟨.interrupted, ""⟩), (4, ⟨.interrupted, ""⟩), (8, slow)]⟩
    (⟨data, 0, []⟩ : Source).decode 1 = (.ok (.array [.text "é"]), ⟨[], 10, []⟩) ∧
      (source.decodeTimes 1 2).1 = [.error (.source slow), .error (.invalidTag 0xA9)] := by
  intro data slow source
  have hplain : (⟨[0x5B, 0x53, 0x6C, 2, 0, 0, 0, 0xC3, 0xA9, 0x5D], 0, []⟩ : Source).decode 1 =
      (.ok (.array [.text "é"]), ⟨[], 10, []⟩) := by
    cbv
  have hsecond : (⟨[0xA9, 0x5D], 8, []⟩ : Source).decode 1 =
      (.error (.invalidTag 0xA9), ⟨[0x5D], 9, []⟩) := by
    cbv
  obtain ⟨htransparent, hverbatim⟩ := decode_transparent_or_verbatim 1
  obtain ⟨k, -, hsource, hfault⟩ := hverbatim data 0 _ _ hplain
  have hk : 10 = 0 + k := congrArg Source.position hsource
  have hfirst := (hfault 8 slow [] (by decide)).2 (by omega)
  have horder : source.InOrder := by
    simp [InOrder, source]
  have hresults := (htransparent source horder 2).1
  have hcalm : source.calm = ⟨data, 0, [(0 + 8, slow)]⟩ := rfl
  rw [hcalm, decodeTimes_succ, hfirst, decodeTimes_succ] at hresults
  refine ⟨hplain, hresults.symm.trans ?_⟩
  exact congrArg (fun outcome => [.error (.source slow), outcome.1]) hsecond

end Source

end EcmaTree
