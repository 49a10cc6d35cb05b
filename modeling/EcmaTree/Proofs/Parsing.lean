import EcmaTree.Proofs.Recognition

/-!
# Decoding accepts exactly the grammar

Decoding is a walk over stacks of frames, in which each step reads some bytes.
The bytes of a value lead from a stack to the same stack with the value put in
its place, which is shown by induction over the value.  Conversely, the bytes
read at any point of a walk build the present stack according to the grammar,
which each step preserves.  The bound on open containers is the depth of the
value in one direction, and part of the invariant in the other.
-/

namespace EcmaTree

namespace Decoder

/-! ## Walks -/

/-- Several steps in a row, and the bytes that they read. -/
inductive Leads (bound : Nat) : Progress → List UInt8 → Progress → Prop where
  | refl (progress : Progress) : Leads bound progress [] progress
  | step {stack : List Frame} {c d : List UInt8} {next last : Progress}
      (hstep : Advances bound stack c next) (hrest : Leads bound next d last) :
      Leads bound (.pending stack) (c ++ d) last

theorem Advances.leads
    {bound : Nat} {stack : List Frame} {c : List UInt8} {next : Progress}
    (h : Advances bound stack c next) :
    Leads bound (.pending stack) c next := by
  simpa using Leads.step h (.refl next)

theorem Leads.trans
    {bound : Nat} {first middle last : Progress} {c d : List UInt8}
    (hfirst : Leads bound first c middle) (hlast : Leads bound middle d last) :
    Leads bound first (c ++ d) last := by
  induction hfirst with
  | refl => exact hlast
  | step hstep _ ih =>
      rw [List.append_assoc]
      exact .step hstep (ih hlast)

/-- Goes on from a state, which need not be an open one. -/
def resume (bound : Nat) (progress : Progress) (source : Source) :
    Except DecodeError Value × Source :=
  match progress with
  | .finished v => (.ok v, source)
  | .pending stack => run bound stack source

theorem run_of_step_ok
    {bound : Nat} {stack : List Frame} {source source' : Source} {next : Progress}
    (h : step bound stack source = .ok next source') :
    run bound stack source = resume bound next source' := by
  rw [run]
  split
  next heq =>
    rw [h] at heq
    cases heq
    rfl
  next heq =>
    rw [h] at heq
    cases heq
    rfl
  next heq =>
    rw [h] at heq
    cases heq

theorem run_of_step_error
    {bound : Nat} {stack : List Frame} {source source' : Source} {error : DecodeError}
    (h : step bound stack source = .error error source') :
    run bound stack source = (.error error, source') := by
  rw [run]
  split
  next heq =>
    rw [h] at heq
    cases heq
  next heq =>
    rw [h] at heq
    cases heq
  next heq =>
    rw [h] at heq
    cases heq
    rfl

/-- A walk is followed to its end. -/
theorem resume_of_leads
    {bound : Nat} {progress last : Progress} {c : List UInt8}
    (h : Leads bound progress c last) (rest : List UInt8) (position : Nat) :
    resume bound progress ⟨c ++ rest, position, []⟩ =
      resume bound last ⟨rest, position + c.length, []⟩ := by
  induction h generalizing position with
  | refl => rfl
  | @step stack c d next last hstep hrest ih =>
      have hread : step bound stack ⟨c ++ d ++ rest, position, []⟩ =
          .ok next ⟨d ++ rest, position + c.length, []⟩ :=
        (recognizes_step bound stack _ _ _ _).mpr
          ⟨c, d ++ rest, hstep, List.append_assoc _ _ _, rfl⟩
      rw [resume, run_of_step_ok hread, ih, List.length_append, Nat.add_assoc]

/-- A run follows a walk up to the step that ends it. -/
theorem exists_leads_to_last_step
    (bound : Nat) (stack : List Frame) (data : List UInt8) (position : Nat) :
    ∃ c rest last, Leads bound (.pending stack) c (.pending last) ∧ data = c ++ rest ∧
      ∀ stack' source, step bound last ⟨rest, position + c.length, []⟩ ≠
        .ok (.pending stack') source := by
  -- The frames may grow in a step, but fewer bytes are left unread.
  induction hlen : data.length using Nat.strongRecOn generalizing stack data position with
  | _ n ih =>
      by_cases hlast : ∃ stack' source, step bound stack ⟨data, position, []⟩ =
          .ok (.pending stack') source
      · obtain ⟨stack', source, hstep⟩ := hlast
        have hshorter := step_unread_lt hstep
        obtain ⟨c, rest, hadvance, rfl, rfl⟩ := (recognizes_step bound stack _ _ _ _).mp hstep
        subst hlen
        obtain ⟨d, rest', last, hleads, rfl, hend⟩ :=
          ih _ hshorter stack' rest (position + c.length) rfl
        refine ⟨c ++ d, rest', last, .step hadvance hleads, ?_, ?_⟩
        · rw [List.append_assoc]
        · rw [List.length_append, ← Nat.add_assoc]
          exact hend
      · refine ⟨[], data, stack, .refl _, rfl, ?_⟩
        intro stack' source hstep
        exact hlast ⟨stack', source, hstep⟩

/-- A run that succeeds has followed a walk. -/
theorem exists_leads_of_run
    {bound : Nat} {stack : List Frame} {data : List UInt8} {position : Nat} {v : Value}
    {source : Source} (h : run bound stack ⟨data, position, []⟩ = (.ok v, source)) :
    ∃ c rest, Leads bound (.pending stack) c (.finished v) ∧ data = c ++ rest ∧
      source = ⟨rest, position + c.length, []⟩ := by
  obtain ⟨c, rest, last, hleads, rfl, hend⟩ := exists_leads_to_last_step bound stack data position
  have hrun : run bound last ⟨rest, position + c.length, []⟩ = (.ok v, source) :=
    (resume_of_leads hleads rest position).symm.trans h
  cases hstep : step bound last ⟨rest, position + c.length, []⟩ with
  | error error source' =>
      rw [run_of_step_error hstep] at hrun
      cases hrun
  | ok next source' =>
      cases next with
      | pending stack' => exact absurd hstep (hend stack' source')
      | finished w =>
          cases (run_of_step_ok hstep).symm.trans hrun
          obtain ⟨d, rest', hadvance, rfl, rfl⟩ := (recognizes_step bound last _ _ _ _).mp hstep
          refine ⟨c ++ d, rest', hleads.trans hadvance.leads, ?_, ?_⟩
          · rw [List.append_assoc]
          · rw [List.length_append, Nat.add_assoc]

/-! ## From the grammar to walks -/

section

variable {bound : Nat}

theorem readyForValue_array (items : List Value) (outer : List Frame) :
    ReadyForValue (.array items :: outer) := by
  rintro frame ⟨⟩
  trivial

theorem readyForValue_name
    (members : List (String × Value)) (name : String) (outer : List Frame) :
    ReadyForValue (.object members (some name) :: outer) := by
  rintro frame ⟨⟩
  rfl

/-- The bytes of a value put it in its place. -/
def LeadsThrough (bound : Nat) (v : Value) : Prop :=
  ∀ {c : List UInt8} {stack : List Frame}, Grammar.Denotes c v → ReadyForValue stack →
    stack.length + v.depth ≤ bound → Leads bound (.pending stack) c (attach v stack)

theorem leads_items
    {items : List Value} (ih : ∀ v ∈ items, LeadsThrough bound v)
    {c : List UInt8} (hitems : Grammar.Items c items)
    {outer : List Frame} (hdepth : ∀ v ∈ items, outer.length + 1 + v.depth ≤ bound)
    (before : List Value) :
    Leads bound (.pending (.array before :: outer)) c
      (.pending (.array (items.reverse ++ before) :: outer)) := by
  induction items generalizing c before with
  | nil =>
      cases hitems
      exact .refl _
  | cons v items ihs =>
      obtain ⟨ihv, ihrest⟩ := List.forall_mem_cons.mp ih
      obtain ⟨hv, hrest⟩ := List.forall_mem_cons.mp hdepth
      cases hitems with
      | cons hdenotes hitems =>
          have hfirst := ihv hdenotes (readyForValue_array before outer) hv
          have hothers := ihs ihrest hitems hrest (v :: before)
          simpa using hfirst.trans hothers

theorem leads_members
    {members : List (String × Value)} (ih : ∀ m ∈ members, LeadsThrough bound m.2)
    {c : List UInt8} (hmembers : Grammar.Members c members)
    {outer : List Frame} (hdepth : ∀ m ∈ members, outer.length + 1 + m.2.depth ≤ bound)
    (before : List (String × Value)) :
    Leads bound (.pending (.object before none :: outer)) c
      (.pending (.object (members.reverse ++ before) none :: outer)) := by
  induction members generalizing c before with
  | nil =>
      cases hmembers
      exact .refl _
  | cons m members ihs =>
      obtain ⟨ihv, ihrest⟩ := List.forall_mem_cons.mp ih
      obtain ⟨hv, hrest⟩ := List.forall_mem_cons.mp hdepth
      cases hmembers with
      | @cons _ _ _ name v _ hname hdenotes hmembers =>
          have hfirst : Leads bound (.pending (.object before none :: outer)) _
              (.pending (.object before (some name) :: outer)) :=
            (Advances.name hname).leads
          have hsecond := ihv hdenotes (readyForValue_name before name outer) hv
          have hothers := ihs ihrest hmembers hrest ((name, v) :: before)
          simpa using (hfirst.trans hsecond).trans hothers

/-- A container is opened, filled and closed. -/
theorem leads_container
    {stack : List Frame} (hready : ReadyForValue stack) (hbound : stack.length < bound)
    (frame : Frame) (hname : frame.name? = none) {c : List UInt8}
    (hbody : Leads bound (.pending (Frame.fresh frame.container :: stack)) c
      (.pending (frame :: stack))) :
    Leads bound (.pending stack)
      (frame.container.startTag.byte :: (c ++ [frame.container.endTag.byte]))
      (attach frame.close stack) := by
  have hopen := (Advances.start frame.container hready hbound).leads
  have hclose : Leads bound (.pending (frame :: stack)) [frame.container.endTag.byte]
      (attach frame.close stack) :=
    (Advances.close hname).leads
  exact hopen.trans (hbody.trans hclose)

theorem leads_of_denotes (v : Value) : LeadsThrough bound v := by
  induction v with
  | null | bool | int | float | text =>
      intro c stack h hready _
      cases h with
      | scalar hscalar => exact (Advances.scalar hready hscalar).leads
  | array items ih =>
      intro c stack h hready hdepth
      cases h with
      | scalar hscalar => cases hscalar
      | array hitems =>
          rw [Value.depth] at hdepth
          have hroom : stack.length < bound := by omega
          have hparts : ∀ v ∈ items, stack.length + 1 + v.depth ≤ bound := by
            intro v hv
            have hle := Value.depthItems_le_iff.mp (Nat.le_refl _) v hv
            omega
          have hbody := leads_items ih hitems hparts []
          rw [List.append_nil] at hbody
          have hall := leads_container hready hroom (.array items.reverse) rfl hbody
          rwa [Frame.close, List.reverse_reverse] at hall
  | object members ih =>
      intro c stack h hready hdepth
      cases h with
      | scalar hscalar => cases hscalar
      | object hmembers =>
          rw [Value.depth] at hdepth
          have hroom : stack.length < bound := by omega
          have hparts : ∀ m ∈ members, stack.length + 1 + m.2.depth ≤ bound := by
            intro m hm
            have hle := Value.depthMembers_le_iff.mp (Nat.le_refl _) m hm
            omega
          have hbody := leads_members ih hmembers hparts []
          rw [List.append_nil] at hbody
          have hall := leads_container hready hroom (.object members.reverse none) rfl hbody
          rwa [Frame.close, List.reverse_reverse] at hall

/-! ## From walks to the grammar -/

/-- Bytes that build a stack within the bound. -/
inductive Builds (bound : Nat) : List UInt8 → List Frame → Prop where
  | nil : Builds bound [] []
  | array {c d : List UInt8} {items : List Value} {outer : List Frame}
      (houter : Builds bound c outer) (hready : ReadyForValue outer)
      (hitems : Grammar.Items d items.reverse) (hroom : outer.length < bound)
      (hdepth : ∀ v ∈ items, outer.length + 1 + v.depth ≤ bound) :
      Builds bound (c ++ Tag.arrayStart.byte :: d) (.array items :: outer)
  | object {c d : List UInt8} {members : List (String × Value)} {outer : List Frame}
      (houter : Builds bound c outer) (hready : ReadyForValue outer)
      (hmembers : Grammar.Members d members.reverse) (hroom : outer.length < bound)
      (hdepth : ∀ m ∈ members, outer.length + 1 + m.2.depth ≤ bound) :
      Builds bound (c ++ Tag.objectStart.byte :: d) (.object members none :: outer)
  | name {c d : List UInt8} {name : String} {members : List (String × Value)}
      {outer : List Frame} (hobject : Builds bound c (.object members none :: outer))
      (hname : Grammar.Text d name) :
      Builds bound (c ++ d) (.object members (some name) :: outer)

/-- Bytes that have led to a state within the bound. -/
def BuildsTo (bound : Nat) (c : List UInt8) : Progress → Prop
  | .finished v => Grammar.Denotes c v ∧ v.depth ≤ bound
  | .pending stack => Builds bound c stack

theorem Builds.length_le
    {c : List UInt8} {stack : List Frame} (h : Builds bound c stack) :
    stack.length ≤ bound := by
  induction h with
  | nil => exact Nat.zero_le _
  | array _ _ _ hroom | object _ _ _ hroom => exact hroom
  | name _ _ ih => exact ih

/-- A value put into a stack extends what builds the stack. -/
theorem Builds.attach
    {c d : List UInt8} {stack : List Frame} {v : Value}
    (h : Builds bound c stack) (hready : ReadyForValue stack) (hv : Grammar.Denotes d v)
    (hdepth : stack.length + v.depth ≤ bound) :
    BuildsTo bound (c ++ d) (Decoder.attach v stack) := by
  cases h with
  | nil => exact ⟨hv, by simpa using hdepth⟩
  | array houter houterReady hitems hroom hparts =>
      rw [List.append_assoc, List.cons_append]
      have hitems' := hitems.concat hv
      rw [← List.reverse_cons] at hitems'
      exact .array houter houterReady hitems' hroom (List.forall_mem_cons.mpr ⟨hdepth, hparts⟩)
  | object => cases hready _ rfl
  | name hobject hname =>
      cases hobject with
      | object houter houterReady hmembers hroom hparts =>
          have hmembers' := hmembers.concat hname hv
          rw [← List.reverse_cons] at hmembers'
          simp only [List.append_assoc, List.cons_append] at hmembers' ⊢
          exact .object houter houterReady hmembers' hroom
            (List.forall_mem_cons.mpr ⟨hdepth, hparts⟩)

theorem depth_of_scalar
    {c : List UInt8} {v : Value} (h : Grammar.Scalar c v) :
    v.depth = 0 := by
  cases h <;> rfl

/-- The bytes of a container that ends are put together. -/
theorem Builds.close
    {c : List UInt8} {frame : Frame} {outer : List Frame}
    (h : Builds bound c (frame :: outer)) (hname : frame.name? = none) :
    BuildsTo bound (c ++ [frame.container.endTag.byte]) (Decoder.attach frame.close outer) := by
  cases h with
  | @array c d items _ houter hready hitems hroom hparts =>
      -- Inside the container the bound is lower by the frames around it and its own.
      have hdepth : Value.depthItems items.reverse ≤ bound - (outer.length + 1) := by
        rw [Value.depthItems_le_iff]
        intro v hv
        have hle := hparts v (List.mem_reverse.mp hv)
        omega
      rw [List.append_assoc]
      refine houter.attach hready (.array hitems) ?_
      rw [Frame.close, Value.depth]
      omega
  | @object c d members _ houter hready hmembers hroom hparts =>
      have hdepth : Value.depthMembers members.reverse ≤ bound - (outer.length + 1) := by
        rw [Value.depthMembers_le_iff]
        intro m hm
        have hle := hparts m (List.mem_reverse.mp hm)
        omega
      rw [List.append_assoc]
      refine houter.attach hready (.object hmembers) ?_
      rw [Frame.close, Value.depth]
      omega
  | name => cases hname

/-- A step extends what builds the stack. -/
theorem Builds.advance
    {c d : List UInt8} {stack : List Frame} {next : Progress}
    (h : Builds bound c stack) (hstep : Advances bound stack d next) :
    BuildsTo bound (c ++ d) next := by
  cases hstep with
  | scalar hready hscalar =>
      apply h.attach hready (.scalar hscalar)
      rw [depth_of_scalar hscalar]
      exact h.length_le
  | start k hready hroom =>
      cases k with
      | array => exact .array h hready .nil hroom (List.forall_mem_nil _)
      | object => exact .object h hready .nil hroom (List.forall_mem_nil _)
  | name hname => exact .name h hname
  | close hname => exact h.close hname

/-- A walk extends what has led to its beginning. -/
theorem BuildsTo.leads
    {c d : List UInt8} {first last : Progress}
    (h : BuildsTo bound c first) (hleads : Leads bound first d last) :
    BuildsTo bound (c ++ d) last := by
  induction hleads generalizing c with
  | refl => rwa [List.append_nil]
  | step hstep _ ih =>
      rw [← List.append_assoc]
      exact ih (Builds.advance h hstep)

/-- The walks to a value are the bytes that denote it. -/
theorem leads_finished_iff {c : List UInt8} {v : Value} :
    Leads bound (.pending []) c (.finished v) ↔ Grammar.Denotes c v ∧ v.depth ≤ bound := by
  constructor
  · intro h
    have hstart : BuildsTo bound [] (.pending []) := Builds.nil
    exact hstart.leads h
  · rintro ⟨hdenotes, hdepth⟩
    apply leads_of_denotes v hdenotes
    · simp [ReadyForValue]
    · simpa using hdepth

end

end Decoder

/-! ## Decoding -/

/-- A value and what follows it are read exactly from bytes that denote the value
within the bound and are followed by the rest. -/
theorem Source.decode_eq_ok_iff
    (data : List UInt8) (position bound : Nat) (v : Value) (source : Source) :
    (⟨data, position, []⟩ : Source).decode bound = (.ok v, source) ↔
      ∃ c rest, data = c ++ rest ∧ Grammar.Denotes c v ∧ v.depth ≤ bound ∧
        source = ⟨rest, position + c.length, []⟩ := by
  constructor
  · intro h
    obtain ⟨c, rest, hleads, hdata, hsource⟩ := Decoder.exists_leads_of_run h
    obtain ⟨hdenotes, hdepth⟩ := Decoder.leads_finished_iff.mp hleads
    exact ⟨c, rest, hdata, hdenotes, hdepth, hsource⟩
  · rintro ⟨c, rest, rfl, hdenotes, hdepth, rfl⟩
    exact Decoder.resume_of_leads (Decoder.leads_finished_iff.mpr ⟨hdenotes, hdepth⟩) rest position

/-- Decoding accepts exactly the grammar: it gives a value and leaves certain
bytes unread exactly if the data are these bytes after some that denote the
value, with no more open containers than the bound allows. -/
theorem Source.decode_accepts_exactly_grammar
    (data : List UInt8) (position bound : Nat) (v : Value) (rest : List UInt8) :
    (((⟨data, position, []⟩ : Source).decode bound).1 = .ok v ∧
        ((⟨data, position, []⟩ : Source).decode bound).2.unread = rest) ↔
      ∃ c, data = c ++ rest ∧ Grammar.Denotes c v ∧ v.depth ≤ bound := by
  have hiff := decode_eq_ok_iff data position bound v
  generalize (⟨data, position, []⟩ : Source).decode bound = outcome at hiff ⊢
  obtain ⟨result, source⟩ := outcome
  constructor
  · rintro ⟨rfl, rfl⟩
    obtain ⟨c, rest, hdata, hdenotes, hdepth, rfl⟩ := (hiff source).mp rfl
    exact ⟨c, hdata, hdenotes, hdepth⟩
  · rintro ⟨c, hdata, hdenotes, hdepth⟩
    cases (hiff _).mpr ⟨c, rest, hdata, hdenotes, hdepth, rfl⟩
    exact ⟨rfl, rfl⟩

end EcmaTree
