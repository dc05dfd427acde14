import Blkcp.Rust.Safety
set_option autoImplicit false

/-! Which stacked devices the guard sees: partitions of the target and what holds them, but not the
partitions of a holder. -/

namespace Blkcp.Rust
open Blkcp.Lib Relation

/-- Names the guard takes for those of block devices under `/dev/`. -/
structure IsBlockName (t : Text) : Prop where
  not_null : devDir ++ t ≠ devNull
  not_zero : devDir ++ t ≠ devZero
  no_slash : '/' ∉ t

/-- The suffix of a partition's name: digits, after a `p` when the disk's name ends in a digit. -/
def partitionSuffix (disk digits : Text) : Text :=
  if disk.getLast?.any Char.isDigit then 'p' :: digits else digits

/-- Block devices with their partitions and their holders. -/
structure BlockGraph where
  devices : List Text
  partitions : Text → List Text
  holders : Text → List Text
  names : ∀ d ∈ devices, IsBlockName d
  holders_mem : ∀ d, ∀ h ∈ holders d, h ∈ devices
  partitions_named : ∀ d, ∀ p ∈ partitions d, ∃ digits : Text, digits ≠ [] ∧
    digits.all Char.isDigit ∧ p = d ++ partitionSuffix d digits

namespace BlockGraph

variable (G : BlockGraph)

/-- Any sequence of partition and holder edges. -/
def Reaches : Text → Text → Prop :=
  ReflTransGen fun d e => e ∈ G.partitions d ∨ e ∈ G.holders d

/-- Holder edges only, one or more, from a device or one of its own partitions. -/
def HeldBy (t h : Text) : Prop := Worklist.Reached G.holders (t :: G.partitions t) h

/-- What makes the guard speak up about the name of an active device. -/
def Seen (t active : Text) : Prop :=
  active = devDir ++ t ∨
    (∃ suffix, suffix ≠ [] ∧ suffix.all partitionChar ∧ active = devDir ++ t ++ suffix) ∨
    ∃ h, G.HeldBy t h ∧ (active = devDir ++ h ∨ mapperDir ++ h <+: active)

end BlockGraph

/-- A device's own partitions and its own holders are listed. -/
structure Sysfs.Lists (sys : Sysfs) (G : BlockGraph) : Prop where
  partitions : ∀ d p, p ∈ G.partitions d ↔ (p, true) ∈ sys.entries d
  holders : ∀ d h, h ∈ G.holders d ↔ h ∈ sys.holders d

namespace Machine

variable (M : Machine)

def mountNames (line : Line) : List Text :=
  match line.fields with
  | dev :: _ :: _ => M.candidates dev
  | _ => []

def swapNames (line : Line) : List Text :=
  match line.fields with
  | dev :: _ => M.candidates dev
  | [] => []

/-- The device names the guard compares: those of the lines it reads, as they stand and resolved. -/
def scanned : List Text :=
  (readable M.mounts).flatMap M.mountNames ++ ((readable M.swaps).drop 1).flatMap M.swapNames

/-- A mounted device or one in use as swap, listed under its kernel name. -/
def Listed (m : Text) : Prop :=
  (∃ line ∈ M.mounts.getD [], ∃ mountPoint rest,
    line.fields = (devDir ++ m) :: mountPoint :: rest) ∨
  ∃ line ∈ (M.swaps.getD []).drop 1, ∃ rest, line.fields = (devDir ++ m) :: rest

end Machine

theorem stripPrefix_eq_some {pre s rest : Text} :
    stripPrefix pre s = some rest ↔ s = pre ++ rest := by
  rw [stripPrefix]
  split
  · rename_i hpre
    obtain ⟨u, rfl⟩ := List.isPrefixOf_iff_prefix.mp hpre
    simp [eq_comm]
  · rename_i hpre
    constructor
    · intro h
      cases h
    · rintro rfl
      exact absurd (List.isPrefixOf_iff_prefix.mpr (List.prefix_append pre rest)) hpre

theorem checkDeviceRelation_isSome (active target : Text) (allHolders : List Text)
    (usage : String) : (checkDeviceRelation active target allHolders usage).isSome ↔
      active = target ∨
      (∃ suffix, suffix ≠ [] ∧ suffix.all partitionChar ∧ active = target ++ suffix) ∨
      ∃ h ∈ allHolders, active = devDir ++ h ∨ mapperDir ++ h <+: active := by
  have hheld : (allHolders.findSome? fun holderName =>
      if active = devDir ++ holderName ∨ (mapperDir ++ holderName).isPrefixOf active then
        some ("Active device holder '" ++ String.ofList holderName ++ "' (LVM/LUKS) of '" ++
          String.ofList target ++ "' is " ++ usage)
      else none).isSome ↔ ∃ h ∈ allHolders, active = devDir ++ h ∨ mapperDir ++ h <+: active := by
    rw [List.findSome?_isSome_iff]
    simp only [Option.isSome_ite, List.isPrefixOf_iff_prefix]
  simp only [checkDeviceRelation]
  by_cases heq : active = target
  · simp [heq]
  · rw [if_neg heq]
    cases hstrip : stripPrefix target active with
    | none =>
      simp only
      rw [hheld]
      refine ⟨fun h => .inr (.inr h), fun h => ?_⟩
      rcases h with h | ⟨suffix, -, -, h⟩ | h
      · exact absurd h heq
      · rw [stripPrefix_eq_some.mpr h] at hstrip
        cases hstrip
      · exact h
    | some suffix =>
      have hactive := stripPrefix_eq_some.mp hstrip
      simp only
      split
      · rename_i hsuffix
        exact ⟨fun _ => .inr (.inl ⟨suffix, hsuffix.1, hsuffix.2, hactive⟩), fun _ => rfl⟩
      · rename_i hsuffix
        rw [hheld]
        refine ⟨fun h => .inr (.inr h), fun h => ?_⟩
        rcases h with h | ⟨suffix', hne, hall, h⟩ | h
        · exact absurd h heq
        · obtain rfl := List.append_cancel_left (hactive.symm.trans h)
          exact absurd ⟨hne, hall⟩ hsuffix
        · exact h

section Holders

variable {sys : Sysfs} {G : BlockGraph}

theorem mem_childPartitions (hsys : sys.Lists G) (d p : Text) :
    p ∈ childPartitions sys d ↔ p ∈ G.partitions d := by
  simp only [childPartitions, List.mem_map, List.mem_filter, Bool.and_eq_true,
    List.isPrefixOf_iff_prefix, Prod.exists, exists_and_right, exists_eq_right]
  rw [hsys.partitions]
  constructor
  · rintro ⟨b, hmem, -, rfl⟩
    exact hmem
  · intro hmem
    obtain ⟨digits, -, -, hname⟩ := G.partitions_named d p ((hsys.partitions d p).mpr hmem)
    exact ⟨true, hmem, ⟨_, hname.symm⟩, rfl⟩

theorem collectAllHolders_reached {sys : Sysfs} {nodes : List Text}
    (hnodes : ∀ a, ∀ b ∈ sys.holders a, b ∈ nodes) (devName : Text) :
    ∃ fuel allHolders, collectAllHolders sys fuel devName = some allHolders ∧
      ∀ h, h ∈ allHolders ↔ Worklist.Reached sys.holders (devName :: childPartitions sys devName) h := by
  obtain ⟨fuel, found, hrun, hfound⟩ := Worklist.run_spec
    (devName :: childPartitions sys devName).reverse hnodes
  refine ⟨fuel, found, hrun, fun h => ?_⟩
  rw [hfound]
  simp only [Worklist.Reached, List.mem_reverse]

/-- Over any finite relation of holders the loop ends, with what one or more holder edges lead to
from the device or from one of its own partitions. -/
theorem collectAllHolders_closure (sys : Sysfs) (nodes : List Text)
    (hnodes : ∀ a, ∀ b ∈ sys.holders a, b ∈ nodes) (devName : Text) :
    ∃ fuel allHolders, collectAllHolders sys fuel devName = some allHolders ∧
      ∀ h, h ∈ allHolders ↔
        ∃ r, (r = devName ∨ ((r, true) ∈ sys.entries devName ∧ devName <+: r)) ∧
          TransGen (fun a b => b ∈ sys.holders a) r h := by
  obtain ⟨fuel, allHolders, hrun, hreached⟩ := collectAllHolders_reached hnodes devName
  refine ⟨fuel, allHolders, hrun, fun h => ?_⟩
  have hroot (r : Text) : r ∈ devName :: childPartitions sys devName ↔
      r = devName ∨ ((r, true) ∈ sys.entries devName ∧ devName <+: r) := by
    unfold childPartitions
    simp [List.isPrefixOf_iff_prefix, and_comm]
  rw [hreached, Worklist.Reached]
  simp only [hroot]

/-- A device with a partition that two devices hold, each of which holds the other. -/
def cyclicSysfs : Sysfs where
  entries d := if d = ['a'] then [(['a', '1'], true), (['q'], false)] else []
  holders d := if d = ['a'] then [] else if d = ['x'] then [['y']] else [['x'], ['y']]

theorem collectAllHolders_closure_cyclic :
    ∃ fuel allHolders, collectAllHolders cyclicSysfs fuel ['a'] = some allHolders ∧
      ∀ h, h ∈ allHolders ↔
        ∃ r, (r = ['a'] ∨ ((r, true) ∈ cyclicSysfs.entries ['a'] ∧ ['a'] <+: r)) ∧
          TransGen (fun a b => b ∈ cyclicSysfs.holders a) r h :=
  collectAllHolders_closure cyclicSysfs [['x'], ['y']] (by
    intro a b hb
    unfold cyclicSysfs at hb
    dsimp only at hb
    split_ifs at hb
    · cases hb
    · rw [List.mem_singleton.mp hb]
      decide
    · exact hb) ['a']

/-- The holders collected are those of the device and of its own partitions, holders of holders
included. -/
theorem collectAllHolders_spec (hsys : sys.Lists G) (d : Text) :
    ∃ fuel allHolders, collectAllHolders sys fuel d = some allHolders ∧
      ∀ h, h ∈ allHolders ↔ G.HeldBy d h := by
  obtain ⟨fuel, found, hrun, hfound⟩ := collectAllHolders_reached
    (fun a b hb => G.holders_mem a b ((hsys.holders a b).mpr hb)) d
  refine ⟨fuel, found, hrun, fun h => ?_⟩
  have hedge : (fun a b => b ∈ sys.holders a) = fun a b => b ∈ G.holders a := by
    funext a b
    exact propext (hsys.holders a b).symm
  rw [hfound]
  simp only [Worklist.Reached, BlockGraph.HeldBy, hedge, List.mem_cons,
    mem_childPartitions hsys]

end Holders

theorem trimStartMatches_devDir {t : Text} (ht : '/' ∉ t) :
    trimStartMatches devDir (devDir ++ t).length (devDir ++ t) = t := by
  have hfirst : stripPrefix devDir (devDir ++ t) = some t := stripPrefix_eq_some.mpr rfl
  have hnext : stripPrefix devDir t = none := by
    cases hstrip : stripPrefix devDir t with
    | none => rfl
    | some rest =>
      rw [stripPrefix_eq_some.mp hstrip] at ht
      exact absurd (List.mem_append_left rest (by decide)) ht
  show trimStartMatches devDir (t.length + 4 + 1) (devDir ++ t) = t
  rw [trimStartMatches, hfirst]
  show trimStartMatches devDir (t.length + 3 + 1) t = t
  rw [trimStartMatches, hnext]

section Detect

variable {M : Machine} {G : BlockGraph} {outputPath t : Text}

theorem mountViolation_isSome (pathStr : Text) (allHolders : List Text) (line : Line) :
    (M.mountViolation pathStr allHolders line).isSome ↔
      ∃ cand ∈ M.mountNames line, (checkDeviceRelation cand pathStr allHolders "").isSome := by
  rw [Machine.mountViolation, Machine.mountNames]
  rcases line.fields with _ | ⟨dev, _ | ⟨mountPoint, rest⟩⟩
  · simp
  · simp
  · simp only [List.findSome?_isSome_iff, checkDeviceRelation_isSome]

theorem swapViolation_isSome (pathStr : Text) (allHolders : List Text) (line : Line) :
    (M.swapViolation pathStr allHolders line).isSome ↔
      ∃ cand ∈ M.swapNames line, (checkDeviceRelation cand pathStr allHolders "").isSome := by
  rw [Machine.swapViolation, Machine.swapNames]
  rcases line.fields with _ | ⟨dev, rest⟩
  · simp
  · simp only [List.findSome?_isSome_iff, checkDeviceRelation_isSome]

/-- The guard speaks up when it sees one of the names it compares. -/
theorem detectMountedViolation_spec (hsys : M.sysfs.Lists G) (ht : IsBlockName t)
    (hpath : M.resolve outputPath = devDir ++ t) :
    ∃ fuel violation, M.detectMountedViolation fuel outputPath = some violation ∧
      (violation.isSome ↔ ∃ active ∈ M.scanned, G.Seen t active) := by
  obtain ⟨fuel, allHolders, hrun, hheld⟩ := collectAllHolders_spec hsys t
  refine ⟨fuel, ((Machine.readable M.mounts).findSome?
    (M.mountViolation (devDir ++ t) allHolders)).or
      (((Machine.readable M.swaps).drop 1).findSome? (M.swapViolation (devDir ++ t) allHolders)),
    ?_, ?_⟩
  · have hdev : ¬ (!devDir.isPrefixOf (devDir ++ t)) = true := by
      rw [List.isPrefixOf_iff_prefix.mpr (List.prefix_append devDir t)]
      decide
    have hpseudo : ¬ (devDir ++ t = devNull ∨ devDir ++ t = devZero) := by
      rintro (h | h)
      · exact ht.not_null h
      · exact ht.not_zero h
    simp only [Machine.detectMountedViolation, hpath]
    rw [if_neg hdev, if_neg hpseudo, trimStartMatches_devDir ht.no_slash, hrun]
    rfl
  · have hrel : ∀ active, (checkDeviceRelation active (devDir ++ t) allHolders "").isSome ↔
        G.Seen t active := by
      intro active
      simp only [checkDeviceRelation_isSome, BlockGraph.Seen, hheld]
    rw [Option.isSome_or, Bool.or_eq_true, List.findSome?_isSome_iff, List.findSome?_isSome_iff]
    simp only [mountViolation_isSome, swapViolation_isSome, hrel, Machine.scanned, List.mem_append,
      List.mem_flatMap]
    constructor
    · rintro (⟨line, hline, active, hactive, hseen⟩ | ⟨line, hline, active, hactive, hseen⟩)
      · exact ⟨active, .inl ⟨line, hline, hactive⟩, hseen⟩
      · exact ⟨active, .inr ⟨line, hline, hactive⟩, hseen⟩
    · rintro ⟨active, ⟨line, hline, hactive⟩ | ⟨line, hline, hactive⟩, hseen⟩
      · exact .inl ⟨line, hline, active, hactive, hseen⟩
      · exact .inr ⟨line, hline, active, hactive, hseen⟩

theorem detectMountedViolation_unique {fuel fuel' : Nat} {v v' : Option String}
    (h : M.detectMountedViolation fuel outputPath = some v)
    (h' : M.detectMountedViolation fuel' outputPath = some v') : v = v' := by
  simp only [Machine.detectMountedViolation] at h h'
  split at h
  · rename_i hpre
    rw [if_pos hpre] at h'
    exact Option.some.inj (h.symm.trans h')
  · rename_i hpre
    rw [if_neg hpre] at h'
    split at h
    · rename_i hnull
      rw [if_pos hnull] at h'
      exact Option.some.inj (h.symm.trans h')
    · rename_i hnull
      rw [if_neg hnull] at h'
      obtain ⟨hs, hrun, rfl⟩ := Option.map_eq_some_iff.mp h
      obtain ⟨hs', hrun', rfl⟩ := Option.map_eq_some_iff.mp h'
      rw [runLoop_unique hrun hrun']

/-- The guard speaks up for every listed device that the target leads to exactly when, if there is
one, it sees a name it compares. -/
theorem detectMountedViolation_iff (hsys : M.sysfs.Lists G) (ht : t ∈ G.devices)
    (hpath : M.resolve outputPath = devDir ++ t) :
    (∀ m, M.Listed m → G.Reaches t m →
      ∃ fuel violation, M.detectMountedViolation fuel outputPath = some (some violation)) ↔
    ∀ m, M.Listed m → G.Reaches t m → ∃ active ∈ M.scanned, G.Seen t active := by
  obtain ⟨fuel, violation, hrun, hiff⟩ := detectMountedViolation_spec hsys (G.names t ht) hpath
  refine forall_congr' fun m => forall_congr' fun _ => forall_congr' fun _ => ?_
  rw [← hiff, Option.isSome_iff_exists]
  constructor
  · rintro ⟨fuel', v, hv⟩
    exact ⟨v, detectMountedViolation_unique hrun hv⟩
  · rintro ⟨v, rfl⟩
    exact ⟨fuel, v, hrun⟩

end Detect

section Example

def sda : Text := ['s', 'd', 'a']
def sda1 : Text := ['s', 'd', 'a', '1']
def md0 : Text := ['m', 'd', '0']
def md0p1 : Text := ['m', 'd', '0', 'p', '1']

/-- A RAID on the partition of a disk, with a partition of its own. -/
def raidGraph : BlockGraph where
  devices := [sda, sda1, md0, md0p1]
  partitions d := if d = sda then [sda1] else if d = md0 then [md0p1] else []
  holders d := if d = sda1 then [md0] else []
  names d hd := by
    simp only [List.mem_cons, List.not_mem_nil, or_false] at hd
    rcases hd with rfl | rfl | rfl | rfl <;> exact ⟨by decide, by decide, by decide⟩
  holders_mem d h hh := by
    split at hh
    · rw [List.mem_singleton.mp hh]
      decide
    · cases hh
  partitions_named d p hp := by
    split at hp
    · rename_i hd
      rw [List.mem_singleton.mp hp, hd]
      exact ⟨['1'], by decide, by decide, by decide⟩
    · split at hp
      · rename_i hd
        rw [List.mem_singleton.mp hp, hd]
        exact ⟨['1'], by decide, by decide, by decide⟩
      · cases hp

/-- A machine with these devices and one of them mounted on `/`. -/
def raidMachine (mounted : Text) : Machine where
  canonicalize := some
  sysfs := ⟨fun d => (raidGraph.partitions d).map (·, true), raidGraph.holders⟩
  mounts := some [⟨[devDir ++ mounted, ['/']], true⟩]
  swaps := none

theorem raidMachine_lists (mounted : Text) : (raidMachine mounted).sysfs.Lists raidGraph where
  partitions d p := by simp [raidMachine]
  holders d h := Iff.rfl

theorem raidMachine_listed (mounted : Text) : (raidMachine mounted).Listed mounted :=
  .inl ⟨_, List.mem_singleton.mpr rfl, _, _, rfl⟩

theorem reaches_md0 : raidGraph.Reaches sda md0 := by
  have hpart : raidGraph.Reaches sda sda1 := .single (.inl (by decide))
  exact hpart.tail (.inr (by decide))

/-- The RAID itself mounted. -/
theorem detectMountedViolation_raid : ∃ fuel violation,
    (raidMachine md0).detectMountedViolation fuel (devDir ++ sda) = some (some violation) := by
  refine (detectMountedViolation_iff (raidMachine_lists md0) (t := sda) (by decide) rfl).mpr
    (fun m _ _ => ?_) md0 (raidMachine_listed md0) reaches_md0
  have hheld : raidGraph.HeldBy sda md0 := ⟨sda1, by decide, .single (by decide)⟩
  exact ⟨devDir ++ md0, by decide, .inr (.inr ⟨md0, hheld, .inl rfl⟩)⟩

/-- The partition of the RAID mounted: writing to the disk is not refused. -/
theorem partitionedRaid_missed : (raidMachine md0p1).Listed md0p1 ∧
    raidGraph.Reaches sda md0p1 ∧ (raidMachine md0p1).sysfs.Lists raidGraph ∧
    sda ∈ raidGraph.devices ∧ (raidMachine md0p1).resolve (devDir ++ sda) = devDir ++ sda ∧
    ∀ fuel violation,
      (raidMachine md0p1).detectMountedViolation fuel (devDir ++ sda) ≠ some (some violation) := by
  refine ⟨raidMachine_listed md0p1, .tail reaches_md0 (.inl (by decide)), raidMachine_lists md0p1,
    by decide, rfl, fun fuel violation h => ?_⟩
  have hnone : (raidMachine md0p1).detectMountedViolation 4 (devDir ++ sda) = some none := by
    decide
  cases detectMountedViolation_unique h hnone

end Example

end Blkcp.Rust
