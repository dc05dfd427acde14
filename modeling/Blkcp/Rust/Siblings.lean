import Blkcp.Rust.SafetyGuard
set_option autoImplicit false

/-! Which names of sibling devices the target safety guard takes for those of partitions. -/

namespace Blkcp.Rust

/-- A block device by its kernel name: a disk, or one of the disk's partitions by its number. -/
structure KernelName where
  disk : Text
  number : Option Text
  named : disk ≠ []
  no_slash : '/' ∉ disk
  digits : ∀ n ∈ number, n ≠ [] ∧ n.all Char.isDigit

namespace KernelName

variable (t a : KernelName)

def suffix : Text :=
  match t.number with
  | none => []
  | some digits => partitionSuffix t.disk digits

def path : Text := devDir ++ (t.disk ++ t.suffix)

/-- The target is a whole disk and the other device is called like one of its partitions. -/
def HasPartition : Prop :=
  t.number = none ∧ ∃ digits : Text, digits ≠ [] ∧ digits.all Char.isDigit ∧
    a.path = t.path ++ partitionSuffix t.disk digits

/-- What may follow the name of the target without being the suffix of a partition of it: anything
behind a partition, and behind a disk a `p` where there must be none, or no number behind the one
that must be there. -/
def Strays (run : Text) : Prop :=
  t.number.isSome ∨
    if t.disk.getLast?.any Char.isDigit then
      ¬ ∃ digits : Text, digits ≠ [] ∧ digits.all Char.isDigit ∧ run = 'p' :: digits
    else 'p' ∈ run

theorem suffix_no_slash : '/' ∉ t.suffix := by
  unfold suffix
  cases hnumber : t.number with
  | none => exact List.not_mem_nil
  | some digits =>
    have hdigits : '/' ∉ digits := by
      intro h
      have hall := List.all_eq_true.mp (t.digits digits hnumber).2 '/' h
      exact absurd hall (by decide)
    show '/' ∉ partitionSuffix t.disk digits
    unfold partitionSuffix
    split
    · intro h
      rcases List.mem_cons.mp h with h | h
      · exact absurd h (by decide)
      · exact hdigits h
    · exact hdigits

/-- Names in the directory of the mapper are not kernel names. -/
theorem not_mapper (name : Text) : ¬ mapperDir ++ name <+: t.path := by
  rintro ⟨rest, hpath⟩
  have hname : ['m', 'a', 'p', 'p', 'e', 'r', '/'] ++ name ++ rest = t.disk ++ t.suffix := by
    simp only [mapperDir, path, List.append_assoc, List.append_cancel_left_eq] at hpath
    simpa using hpath
  have hslash : '/' ∈ t.disk ++ t.suffix := by
    rw [← hname]
    simp
  rcases List.mem_append.mp hslash with h | h
  · exact t.no_slash h
  · exact t.suffix_no_slash h

/-- A run of digits and `p`s behind the name of the target is the suffix of one of its partitions,
or it strays. -/
theorem strays_or_partition {run : Text} (hne : run ≠ []) (hrun : run.all partitionChar) :
    ¬ t.Strays run ↔ t.number = none ∧ ∃ digits : Text, digits ≠ [] ∧ digits.all Char.isDigit ∧
      run = partitionSuffix t.disk digits := by
  unfold Strays partitionSuffix
  rw [not_or, Bool.not_eq_true, Option.isSome_eq_false_iff, Option.isNone_iff_eq_none]
  refine and_congr_right fun _ => ?_
  split
  · exact not_not
  · constructor
    · intro hp
      refine ⟨run, hne, List.all_eq_true.mpr fun c hc => ?_, rfl⟩
      have hchar := List.all_eq_true.mp hrun c hc
      rcases Bool.or_eq_true _ _ |>.mp hchar with hdigit | hcp
      · exact hdigit
      · rw [beq_iff_eq.mp hcp] at hc
        exact absurd hc hp
    · rintro ⟨digits, -, hdigits, rfl⟩ hp
      exact absurd (List.all_eq_true.mp hdigits 'p' hp) (by decide)

end KernelName

variable {target active : KernelName} {allHolders : List Text}

/-- Among kernel names the guard reports the target, what its name begins with a run of digits and
`p`s behind it, and what is held. -/
theorem checkDeviceRelation_kernel (usage : String) :
    (checkDeviceRelation active.path target.path allHolders usage).isSome ↔
      active.path = target.path ∨
      (∃ run, run ≠ [] ∧ run.all partitionChar ∧ active.path = target.path ++ run) ∨
      ∃ h ∈ allHolders, active.path = devDir ++ h := by
  rw [checkDeviceRelation_isSome]
  refine or_congr_right (or_congr_right ?_)
  constructor
  · rintro ⟨h, hmem, heq | hmapper⟩
    · exact ⟨h, hmem, heq⟩
    · exact absurd hmapper (active.not_mapper h)
  · rintro ⟨h, hmem, heq⟩
    exact ⟨h, hmem, .inl heq⟩

/-- The guard reports only the target, its partitions and its holders exactly when no name that is
not a holder's strays from the target's. -/
theorem checkDeviceRelation_only_iff (target active : KernelName) (allHolders : List Text)
    (usage : String) :
    ((checkDeviceRelation active.path target.path allHolders usage).isSome →
      active.path = target.path ∨ target.HasPartition active ∨
        ∃ h ∈ allHolders, active.path = devDir ++ h) ↔
    ∀ run : Text, run ≠ [] → run.all partitionChar → active.path = target.path ++ run →
      target.Strays run → ∃ h ∈ allHolders, active.path = devDir ++ h := by
  rw [checkDeviceRelation_kernel]
  constructor
  · intro h run hne hrun hpath hstray
    rcases h (.inr (.inl ⟨run, hne, hrun, hpath⟩)) with heq | ⟨hdisk, digits, hd, hall, hpart⟩ | hheld
    · rw [heq] at hpath
      exact absurd (List.self_eq_append_right.mp hpath) hne
    · obtain rfl := List.append_cancel_left (hpath.symm.trans hpart)
      exact absurd hstray ((target.strays_or_partition hne hrun).mpr ⟨hdisk, digits, hd, hall, rfl⟩)
    · exact hheld
  · rintro h (heq | ⟨run, hne, hrun, hpath⟩ | hheld)
    · exact .inl heq
    · by_cases hstray : target.Strays run
      · exact .inr (.inr (h run hne hrun hpath hstray))
      · obtain ⟨hdisk, digits, hd, hall, rfl⟩ :=
          (target.strays_or_partition hne hrun).mp hstray
        exact .inr (.inl ⟨hdisk, digits, hd, hall, hpath⟩)
    · exact .inr (.inr hheld)

/-- The first partition of a disk. -/
def sdaFirst : KernelName where
  disk := sda
  number := some ['1']
  named := by decide
  no_slash := by decide
  digits := by decide

/-- The twelfth. -/
def sdaTwelfth : KernelName where
  disk := sda
  number := some ['1', '2']
  named := by decide
  no_slash := by decide
  digits := by decide

/-- The twelfth partition of a disk is taken for a partition of the first. -/
theorem siblings_reported : ¬ ∀ (target active : KernelName) (allHolders : List Text)
    (usage : String), (checkDeviceRelation active.path target.path allHolders usage).isSome →
      active.path = target.path ∨ target.HasPartition active ∨
        ∃ h ∈ allHolders, active.path = devDir ++ h := by
  intro h
  have hsome : (checkDeviceRelation sdaTwelfth.path sdaFirst.path [] "").isSome :=
    (checkDeviceRelation_isSome _ _ _ _).mpr (.inr (.inl ⟨['2'], by decide, by decide, by decide⟩))
  rcases h sdaFirst sdaTwelfth [] "" hsome with heq | ⟨hdisk, -⟩ | ⟨_, hmem, -⟩
  · exact absurd heq (by decide)
  · cases hdisk
  · cases hmem

end Blkcp.Rust
