import Petix.Proof.Tar.Reading

namespace Petix.Proof.Tar
open Function Library Library.Result Kernel.Mounts Kernel.Vfs Kernel.Tar Spec.Tar

variable {image : Initrd} {fs : TarFs} {buf : Buffer} {e : Entry} {entries : List Entry} {blk fuel : Nat}
  {f : File Unit} {dir : List Byte}
variable {left : Nat} {last : List Byte} {str : Buffer} {listed : List (Nat × FileType × List Byte)}

def Behind (dir : List Byte) (e : Entry) (rest : List Byte) : Prop :=
  e.name = dir ++ rest ∧ rest ≠ [] ∧ rest.head? ≠ some slash

theorem childName_of_behind {rest : List Byte} (behind : Behind dir e rest) :
    childName dir e.name = if rest = rest.takeWhile (· ≠ slash) ∨ rest = rest.takeWhile (· ≠ slash) ++ [slash] then
      some (rest.takeWhile (· ≠ slash)) else none := by
  obtain ⟨whole, nonempty, first⟩ := behind
  have last : rest.takeWhile (· ≠ slash) ≠ [] := by
    cases rest with
    | nil => exact absurd rfl nonempty
    | cons a rest =>
      have other : a ≠ slash := by simpa using first
      simp [other]
  rw [childName, whole, List.drop_left]
  simp only [List.prefix_append, last, ne_eq, not_false_eq_true, true_and]

theorem strchr_eq {rest : List Byte} {pos : Nat} (text : Text buf pos rest) (ends : 0 ∉ rest)
    (fits : rest.length < left) : strchr buf slash left pos =
      .ok (if slash ∈ rest then some (pos + (rest.takeWhile (· ≠ slash)).length) else none) := by
  induction rest generalizing pos left with
  | nil =>
    obtain ⟨left, rfl⟩ := Nat.exists_eq_succ_of_ne_zero (Nat.ne_zero_of_lt fits)
    have zero : buf pos = 0 := text 0 le_rfl
    rw [strchr, if_pos zero]
    rfl
  | cons a rest ih =>
    obtain ⟨_, rfl⟩ := Nat.exists_eq_succ_of_ne_zero (Nat.ne_zero_of_lt fits)
    have first : buf pos = a := text 0 (Nat.zero_le _)
    rw [strchr, first, if_neg (List.ne_of_not_mem_cons ends).symm]
    by_cases same : a = slash
    · simp [same]
    · rw [if_neg same, ih (text_tail text) (List.not_mem_of_not_mem_cons ends) (Nat.lt_of_succ_lt_succ fits)]
      simp [same, Ne.symm same, Nat.add_assoc, Nat.add_comm 1]

theorem takeWhile_slash {tail : List Byte} (before : slash ∉ last) :
    (last ++ slash :: tail).takeWhile (· ≠ slash) = last := by
  rw [List.takeWhile_append_of_pos, List.takeWhile_cons_of_neg (by simp), List.append_nil]
  intro a among
  simpa using fun same : a = slash => before (same ▸ among)

theorem takeWhile_no_slash {rest : List Byte} (none_there : slash ∉ rest) : rest.takeWhile (· ≠ slash) = rest := by
  rw [List.takeWhile_eq_self_iff]
  intro a among
  simpa using fun same : a = slash => none_there (same ▸ among)

theorem isChild_eq (header : Header buf 0 e) {rest : List Byte} (behind : Behind dir e rest) :
    isChild buf dir.length = .ok (childName dir e.name).isSome := by
  have whole := behind.1
  have ends : 0 ∉ rest := fun zero => e.named.2.1 (whole ▸ List.mem_append_right _ zero)
  have short := e.named.2.2
  rw [whole, List.length_append] at short
  rw [isChild, strchr_eq (text_behind header whole) ends (by rw [blockSize]; omega), ok_bind,
    childName_of_behind behind]
  by_cases there : slash ∈ rest
  · rw [if_pos there]
    obtain ⟨last, tail, rfl, before⟩ := List.eq_append_cons_of_mem there
    have text := text_behind header (whole.trans (List.append_assoc dir last (slash :: tail)).symm)
    have next : buf (dir.length + last.length + 1) = tail.getD 0 0 := by
      rw [List.length_append] at text
      exact text_tail text 0 (Nat.zero_le _)
    have inner : last ++ slash :: tail ≠ last := by simp
    rw [List.length_append, List.length_cons] at short
    simp only [takeWhile_slash before, inner, false_or, List.append_cancel_left_eq]
    rw [if_neg (by rw [blockSize]; omega), next]
    cases tail with
    | nil => rfl
    | cons a tail =>
      have nonzero : a ≠ 0 := by
        rintro rfl
        exact ends (by simp)
      rw [List.getD_cons_zero, decide_eq_false nonzero, if_neg (by simp)]
      rfl
  · rw [if_neg there, takeWhile_no_slash there]
    simp
    rfl

theorem skipToken_eq (here : ∀ i < last.length, str i = last.getD i 0)
    (plain : 0 ∉ last ∧ slash ∉ last) (stop : str last.length = 0 ∨ str last.length = slash)
    (fits : last.length < left) : skipToken str left 0 = .ok last.length := by
  have run : skipToken str left 0 = .ok (0 + last.length) := by
    refine Fs.skipWhile_eq (fun i inside => ?_) ?_ fits
    · have among := Fs.getD_mem inside
      rw [Nat.zero_add, here i inside]
      simp only [Bool.and_eq_true, bne_iff_ne, ne_eq]
      exact ⟨fun zero => plain.1 (zero ▸ among), fun same => plain.2 (same ▸ among)⟩
    · rcases stop with zero | same
      · simp [zero]
      · simp [same]
  rwa [Nat.zero_add] at run

theorem cutToken_eq {rest : List Byte} (text : Text str 0 rest) (ends : 0 ∉ rest) (nonempty : rest ≠ [])
    (first : rest.head? ≠ some slash) (short : rest.length < fileNameLen) :
    ∃ str', cutToken str fileNameLen = .ok str' ∧ cstr str' fileNameLen 0 = rest.takeWhile (· ≠ slash) := by
  have here (i : Nat) (le : i ≤ rest.length) : str i = rest.getD i 0 := by rw [← text i le, Nat.zero_add]
  have start : str 0 ≠ 0 ∧ str 0 ≠ slash := by
    cases rest with
    | nil => exact absurd rfl nonempty
    | cons a rest =>
      rw [here 0 (Nat.zero_le _), List.getD_cons_zero]
      exact ⟨(List.ne_of_not_mem_cons ends).symm, by simpa using first⟩
  have begin : skipDelim str fileNameLen 0 = .ok 0 :=
    Fs.skipWhile_eq (n := 0) (fun i inside => absurd inside (Nat.not_lt_zero i)) (by simp [start.2]) (by decide)
  rw [cutToken, begin, ok_bind, if_neg start.1]
  by_cases there : slash ∈ rest
  · obtain ⟨last, tail, rfl, before⟩ := List.eq_append_cons_of_mem there
    have plain : 0 ∉ last := fun zero => ends (List.mem_append_left _ zero)
    have inside : last.length < (last ++ slash :: tail).length := by simp
    have token (i : Nat) (less : i < last.length) : str i = last.getD i 0 := by
      rw [here i (by omega), List.getD_append _ _ _ _ less]
    have stop : str last.length = slash := by
      rw [here _ inside.le, List.getD_append_right _ _ _ _ le_rfl, Nat.sub_self, List.getD_cons_zero]
    refine ⟨update str last.length 0, ?_, ?_⟩
    · rw [skipToken_eq token ⟨plain, before⟩ (.inr stop) (by omega), ok_bind, stop, if_neg (by decide)]
      rfl
    · rw [takeWhile_slash before]
      refine Fs.cstr_eq (fun i less => ?_) plain ?_ (by omega)
      · rw [Nat.zero_add, update_of_ne (by omega), token i less]
      · rw [Nat.zero_add, update_self]
  · have stop : str rest.length = 0 := by rw [here _ le_rfl, List.getD_eq_default _ _ le_rfl]
    refine ⟨str, ?_, ?_⟩
    · rw [skipToken_eq (fun i less => here i less.le) ⟨ends, there⟩ (.inl stop) (by omega), ok_bind, if_pos stop]
      rfl
    · rw [takeWhile_no_slash there]
      refine Fs.cstr_eq (fun i less => ?_) ends ?_ short
      · rw [Nat.zero_add, here i less.le]
      · rwa [Nat.zero_add]

theorem fillDirent_eq (header : Header buf 0 e) {rest : List Byte} (behind : Behind dir e rest) (blk : Nat)
    (d : Dirent) : ∃ name, fillDirent buf dir.length blk d = .ok ⟨blk, true, e.kind.ftype, name⟩ ∧
      cstr name fileNameLen 0 = rest.takeWhile (· ≠ slash) := by
  obtain ⟨whole, nonempty, first⟩ := behind
  have ends : 0 ∉ rest := fun zero => e.named.2.1 (whole ▸ List.mem_append_right _ zero)
  have short := e.named.2.2
  rw [whole, List.length_append] at short
  have text := text_behind header whole
  have string : cstr buf (blockSize - dir.length) dir.length = rest := by
    refine Fs.cstr_eq (fun i less => text i less.le) ends ?_ (by rw [blockSize]; omega)
    rw [text _ le_rfl, List.getD_eq_default _ _ le_rfl]
  have copied : Text (fun i => if i < nameLen then strncpy rest nameLen i else d.name i) 0 rest := by
    intro _ _
    simp only [Nat.zero_add, nameLen]
    rw [if_pos (by omega), strncpy, List.take_of_length_le (by omega)]
  obtain ⟨name, run, named⟩ := cutToken_eq copied ends nonempty first (by rw [fileNameLen]; omega)
  have flag := header.kind
  refine ⟨name, ?_, named⟩
  rw [fillDirent, string, run, typeflagAt, flag]
  cases e.kind <;> rfl

variable {name : Buffer} {d : Dirent} {below rest : List Entry}

theorem getdentLoop_succ {fs' : TarFs} {buf' : Buffer} (named : cstr name nameLen 0 = dir)
    (short : dir.length < nameLen)
    (run : readHeader fs blk buf = .ok (fs', buf')) (f : File Unit) (d : Dirent) (fuel : Nat) :
    getdentLoop name f d (fuel + 1) fs blk buf = if buf' 0 = 0 ∨ strncmp (headerName buf') dir dir.length ≠ 0 then
        .ok (fs', { f with offset := blockOffset blk }, { d with present := false })
      else isChild buf' dir.length >>= fun child =>
        if child then
          fillDirent buf' dir.length blk d >>= fun d => tarNextBlk buf' blk >>= fun next =>
            .ok (fs', { f with offset := blockOffset next - f.privateData }, d)
        else tarNextBlk buf' blk >>= fun next =>
          getdentLoop name { f with offset := blockOffset blk } d fuel fs' next buf' := by
  rw [getdentLoop, run, named, ok_bind]
  dsimp only
  rw [if_neg short.ne]
  rfl

theorem strncmp_dir (header : Header buf 0 e) (ends : 0 ∉ dir) :
    strncmp (headerName buf) dir dir.length = 0 ↔ dir <+: e.name := by
  rw [headerName_eq header, Fs.strncmp_eq_zero_iff e.named.2.1 ends, List.take_length, List.prefix_iff_eq_take, eq_comm]

structure Ahead (image : Initrd) (dir : List Byte) (blk : Nat) (below rest : List Entry) : Prop where
  laid : Laid image blk (below ++ rest)
  inside : ∀ e ∈ below, ∃ tail, Behind dir e tail
  outside : ∀ e ∈ rest, ¬dir <+: e.name

theorem Ahead.tail (ahead : Ahead image dir blk (e :: below) rest) : Ahead image dir (blk + e.blocks) below rest :=
  ⟨ahead.laid.2.2, fun e later => ahead.inside e (.tail _ later), ahead.outside⟩

def Returned (image : Initrd) (dir : List Byte) (rest : List Entry) (f f' : File Unit) (d' : Dirent) (most : Nat) :
    List (Nat × FileType × List Byte) → Prop
  | [] => d'.present = false ∧ ∃ blk' : Nat, f' = { f with offset := (512 * blk' : Nat) } ∧ Ahead image dir blk' [] rest
  | child :: later => d'.present = true ∧ (d'.inodeId, d'.type, cstr d'.name fileNameLen 0) = child ∧
      ∃ (blk' : Nat) (below' : List Entry), f' = { f with offset := (512 * blk' : Nat) - f.privateData } ∧
        Ahead image dir blk' below' rest ∧ below'.length ≤ most ∧ children dir (place blk' below') = later

theorem Returned.mono {f' : File Unit} {d' : Dirent} {offset : Int} {most more : Nat} (le : most ≤ more)
   
    (returned : Returned image dir rest { f with offset := offset } f' d' most listed) :
    Returned image dir rest f f' d' more listed := by
  cases listed with
  | nil => exact returned
  | cons child later =>
    obtain ⟨present, here, blk', below', file, ahead, fewer, listed⟩ := returned
    exact ⟨present, here, blk', below', file, ahead, fewer.trans le, listed⟩

theorem children_cons (dir : List Byte) (blk : Nat) (e : Entry) (entries : List Entry) :
    children dir (place blk (e :: entries)) =
      ((childName dir e.name).map fun last => (blk, e.kind.ftype, last)).toList ++
        children dir (place (blk + e.blocks) entries) := by
  rw [children, place, List.filterMap_cons]
  cases childName dir e.name <;> rfl

theorem getdentLoop_ahead (small : image.size < 2 ^ 31) (ends : 0 ∉ dir) (named : cstr name nameLen 0 = dir)
    (short : dir.length < nameLen) (ahead : Ahead image dir blk below rest) (opened : Opened image fs)
    (enough : below.length < fuel) (f : File Unit) (d : Dirent) (buf : Buffer) :
    ∃ fs' f' d', getdentLoop name f d fuel fs blk buf = .ok (fs', f', d') ∧ Opened image fs' ∧
      Returned image dir rest f f' d' below.length (children dir (place blk below)) := by
  induction below generalizing blk fs fuel f d buf with
  | nil =>
    obtain ⟨fuel, rfl⟩ := Nat.exists_eq_succ_of_ne_zero (Nat.ne_zero_of_lt enough)
    obtain ⟨fs', run, opened'⟩ := readHeader_laid opened small ahead.laid buf
    have inside := laid_inside ahead.laid
    have last : overlay image (512 * blk) 512 buf 0 = 0 ∨
        strncmp (headerName (overlay image (512 * blk) 512 buf)) dir dir.length ≠ 0 := by
      cases rest with
      | nil => exact .inl ahead.laid.2
      | cons e rest =>
        right
        rw [ne_eq, strncmp_dir (overlay_header ahead.laid.1 buf) ends]
        exact ahead.outside e (.head _)
    rw [getdentLoop_succ named short run, if_pos last, blockOffset_eq small (by omega)]
    exact ⟨fs', _, _, rfl, opened', rfl, blk, rfl, ahead⟩
  | cons e below ih =>
    obtain ⟨_, rfl⟩ := Nat.exists_eq_succ_of_ne_zero (Nat.ne_zero_of_lt enough)
    obtain ⟨fs', run, opened'⟩ := readHeader_laid opened small ahead.laid buf
    obtain ⟨tail, behind⟩ := ahead.inside e (.head _)
    have header := overlay_header ahead.laid.1 buf
    have inside := laid_content ahead.laid
    have follows := laid_inside ahead.laid.2.2
    have within : ¬(overlay image (512 * blk) 512 buf 0 = 0 ∨
        strncmp (headerName (overlay image (512 * blk) 512 buf)) dir dir.length ≠ 0) := by
      rw [not_or, not_not, strncmp_dir header ends]
      exact ⟨header_first header, behind.1 ▸ List.prefix_append _ _⟩
    rw [getdentLoop_succ named short run, if_neg within, isChild_eq header behind, ok_bind]
    rw [children_cons, tarNextBlk_eq header small inside]
    cases found : childName dir e.name with
    | some last =>
      obtain ⟨entryName, filled, cut⟩ := fillDirent_eq header behind blk d
      have lastName : last = tail.takeWhile (· ≠ slash) := by
        rw [childName_of_behind behind] at found
        split at found
        · exact (Option.some.inj found).symm
        · cases found
      refine ⟨fs', { f with offset := (512 * (blk + e.blocks) : Nat) - f.privateData },
        ⟨blk, true, e.kind.ftype, entryName⟩, ?_, opened', rfl, ?_, blk + e.blocks, below, rfl, ahead.tail, ?_, rfl⟩
      · rw [Option.isSome_some, if_pos rfl, filled, ok_bind, ok_bind, blockOffset_eq small (by omega)]
      · rw [cut, lastName]
      · exact Nat.le_succ _
    | none =>
      obtain ⟨fs'', f', d', later, opened'', returned⟩ := ih ahead.tail opened' (Nat.lt_of_succ_lt_succ enough)
        { f with offset := blockOffset blk } d (overlay image (512 * blk) 512 buf)
      refine ⟨fs'', f', d', later, opened'', ?_⟩
      exact Returned.mono (Nat.le_succ _) returned

structure ListsAt (image : Initrd) (dir : List Byte) (f : File Unit) (blk : Nat) : Prop where
  type : f.inode.ftype = .dir
  position : f.privateData + f.offset = (512 * blk : Nat)
  named : f.inode.inodeId = idRoot ∧ dir = [] ∨ ∃ b d later, f.inode.inodeId ≠ idRoot ∧
    f.privateData = (512 * (b + 1) : Nat) ∧ d.name = dir ∧ Laid image b (d :: later)

theorem ListsAt.short (listsAt : ListsAt image dir f blk) : 0 ∉ dir ∧ dir.length < nameLen := by
  rcases listsAt.named with ⟨-, rfl⟩ | ⟨-, d, -, -, -, rfl, -⟩
  · exact ⟨List.not_mem_nil, by decide⟩
  · exact d.named.2

theorem dirName_eq (listsAt : ListsAt image dir f blk) (small : image.size < 2 ^ 31) (opened : Opened image fs)
    (stack : Buffer) :
    ∃ fs' name, dirName fs f stack = .ok (fs', name) ∧ Opened image fs' ∧ cstr name nameLen 0 = dir := by
  rcases listsAt.named with ⟨root, rfl⟩ | ⟨b, d, _, notRoot, start, rfl, laid⟩
  · refine ⟨fs, update stack 0 0, by rw [dirName, if_pos root], opened, ?_⟩
    rw [nameLen, cstr, update_self, if_pos rfl]
  · have inside := laid_inside laid
    have position : f.privateData - (blockSize : Nat) = (512 * b : Nat) := by
      rw [start, blockSize]
      omega
    obtain ⟨fs', run, opened'⟩ := initrdRead_eq opened small (512 * b) 100 100 (by omega) (by omega)
      (Nat.min_le_right _ _) stack
    rw [Nat.min_eq_right (by omega)] at run
    refine ⟨fs', overlay image (512 * b) 100 stack, ?_, opened', ?_⟩
    · rw [dirName, if_neg notRoot, position, nameLen, run]
      rfl
    · obtain ⟨-, ends, short⟩ := d.named
      have here (i : Nat) (le : i ≤ d.name.length) : overlay image (512 * b) 100 stack (0 + i) = d.name.getD i 0 := by
        rw [Nat.zero_add, overlay, if_pos (by omega), laid.1.name i le]
      refine Fs.cstr_eq (fun i less => here i less.le) ends ?_ short
      rw [here _ le_rfl, List.getD_eq_default _ _ le_rfl]

theorem getdent_ahead (listsAt : ListsAt image dir f blk) (small : image.size < 2 ^ 31)
    (ahead : Ahead image dir blk below rest) (opened : Opened image fs) (enough : below.length < fuel) (d : Dirent)
    (nameStack stack : Buffer) :
    ∃ fs' f' d', getdent fuel fs f d nameStack stack = .ok (0, fs', f', d') ∧ Opened image fs' ∧
      Returned image dir rest f f' d' below.length (children dir (place blk below)) := by
  have inside := laid_inside ahead.laid
  have first : ((f.privateData + f.offset).tdiv blockSize % 2 ^ 32).toNat = blk := by
    rw [listsAt.position, blockSize, Int.tdiv_eq_ediv_of_nonneg (by omega)]
    omega
  obtain ⟨_, _, named, opened', equal⟩ := dirName_eq listsAt small opened nameStack
  obtain ⟨fs'', f', d', run, opened'', returned⟩ := getdentLoop_ahead small listsAt.short.1 equal listsAt.short.2 ahead
    opened' enough f d stack
  refine ⟨fs'', f', d', ?_, opened'', returned⟩
  rw [getdent, if_neg (not_not.mpr listsAt.type), named, ok_bind]
  dsimp only
  rw [first, run]
  rfl

theorem reports_ahead (small : image.size < 2 ^ 31)
    (listsAt : ListsAt image dir f blk) (ahead : Ahead image dir blk below rest) (opened : Opened image fs)
    (enough : below.length < fuel) (equal : children dir (place blk below) = listed) : Reports fuel listed fs f := by
  induction listed generalizing f fs blk below with
  | nil =>
    intro d nameStack stack
    obtain ⟨fs', f', d', run, -, returned⟩ := getdent_ahead listsAt small ahead opened enough d nameStack stack
    rw [equal] at returned
    exact ⟨fs', f', d', run, returned.1⟩
  | cons child later ih =>
    intro d nameStack stack
    obtain ⟨fs', _, d', run, opened', returned⟩ := getdent_ahead listsAt small ahead opened enough d nameStack stack
    rw [equal] at returned
    obtain ⟨present, here, _, _, rfl, ahead', _, equal'⟩ := returned
    refine ⟨fs', _, d', run, present, here, ih ⟨listsAt.type, ?_, listsAt.named⟩ ahead' opened' (by omega) equal'⟩
    exact add_sub_cancel _ _

theorem children_outside (outside : ∀ e ∈ entries, ¬dir <+: e.name) : children dir (place blk entries) = [] := by
  induction entries generalizing blk with
  | nil => rfl
  | cons e entries ih =>
    have none_here : childName dir e.name = none := if_neg fun child => outside e (.head _) child.1
    rw [children_cons, none_here, ih fun e later => outside e (.tail _ later)]
    rfl

theorem children_append (dir : List Byte) (blk : Nat) (before behind : List Entry) :
    children dir (place blk (before ++ behind)) =
      children dir (place blk before) ++ children dir (place (blk + totalBlocks before) behind) := by
  rw [place_append, children, List.filterMap_append]
  rfl

theorem orderly_behind (orderly : Orderly entries) {before behind : List Entry} {d : Entry}
    (split : entries = before ++ d :: behind) (directory : d.kind = .directory) {e : Entry} (later : e ∈ behind)
    (front : d.name <+: e.name) : ∃ tail, Behind d.name e tail := by
  obtain ⟨tail, whole⟩ := front
  refine ⟨tail, whole.symm, ?_, ?_⟩
  · rintro rfl
    have distinct := orderly.distinct
    rw [split, List.map_append, List.map_cons] at distinct
    have once := (List.nodup_cons.mp distinct.of_append_right).1
    rw [List.append_nil] at whole
    exact once (whole ▸ List.mem_map_of_mem later)
  · intro first
    obtain ⟨start, slashed⟩ := (orderly.slashes d (by simp [split])).mp directory
    obtain ⟨tail, rfl⟩ := List.head?_eq_some_iff.mp first
    refine (orderly.components e (by simp [split, later])).2 ⟨start, tail, ?_⟩
    rw [← whole, ← slashed]
    simp

theorem children_directory (d : Entry) : childName d.name d.name = none := if_neg fun child => child.2.1 (by simp)

theorem tarfs_getdent_lists_children (laid : Laid image 0 entries) (small : image.size < 2 ^ 31)
    (orderly : Orderly entries) (opened : Opened image fs) {inode : Inode Unit}
    (directory : DirectoryInode entries dir inode) (file : File Unit) (enough : entries.length < fuel) :
    (fsOpen topen inode file oDirectory).1 = 0 ∧
      Reports fuel (children dir (place 0 entries)) fs (fsOpen topen inode file oDirectory).2 := by
  cases directory with
  | root before =>
    have ahead : Ahead image [] 0 entries [] := by
      refine ⟨?_, fun e among => ⟨e.name, rfl, e.named.1, (orderly.components e among).1⟩, nofun⟩
      rwa [List.append_nil]
    exact ⟨rfl, reports_ahead small ⟨rfl, rfl, .inl ⟨rfl, rfl⟩⟩ ahead opened enough rfl⟩
  | @entry blk d inode among isDirectory describes =>
    obtain ⟨before, behind, split, at_block⟩ := exists_split among
    obtain ⟨fewer, below, _, parts, inside, outside⟩ := orderly.follow before d behind split isDirectory
    have here : Laid image blk (d :: behind) := by
      rw [split] at laid
      exact at_block ▸ laid_append laid
    have start := laid_inside here
    have one : d.blocks = 1 := by
      rw [Entry.blocks, orderly.bare d (by simp [split]) isDirectory]
      rfl
    have listed : children d.name (place 0 entries) = children d.name (place (blk + 1) below) := by
      rw [split, parts, children_append, children_outside fewer, ← at_block, children_cons, children_directory,
        children_append, children_outside outside, List.append_nil, one]
      rfl
    have type : inode.ftype = .dir := by rw [describes.ftype, isDirectory, Kind.ftype]
    have word : 512 * (blk + 1) < 2 ^ 32 := by omega
    have number := topen_start word describes.inodeId { file with inode := inode, offset := 0 }
    rw [parts] at split here
    rw [fsOpen, type, listed]
    refine ⟨rfl, reports_ahead small ⟨type, ?_, .inr ⟨blk, d, _, ?_, number, rfl, here⟩⟩ ⟨?_, ?_, outside⟩ opened ?_ rfl⟩
    · exact (congrArg (· + 0) number).trans (Int.add_zero _)
    · exact fun root => by have := describes.inodeId.symm.trans root; rw [idRoot] at this; omega
    · exact one ▸ here.2.2
    · intro e among
      exact orderly_behind orderly split isDirectory (List.mem_append_left _ among) (inside e among)
    · rw [split] at enough
      simp only [List.length_append, List.length_cons] at enough
      omega

theorem orderly_oneFile (content : List Byte) : Orderly [oneFile content] where
  distinct := List.nodup_singleton _
  components := by
    simp only [List.mem_singleton, forall_eq, oneFile]
    decide
  slashes := by
    simp only [List.mem_singleton, forall_eq, oneFile]
    decide
  bare := by simp [oneFile]
  follow before d behind split directory := by
    have among : d ∈ [oneFile content] := split ▸ List.mem_append_right _ (.head _)
    rw [List.mem_singleton.mp among] at directory
    cases directory

theorem tarfs_getdent_lists_children_hi :
    Reports 2 [(0, .regular, [0x66])] (initrdOpen hiImage) (fsOpen topen (getroot () anyInode) anyFile oDirectory).2 :=
  (tarfs_getdent_lists_children laid_hiImage (by decide) (orderly_oneFile _) (opened_initrdOpen hiImage)
    (.root anyInode) anyFile (by decide)).2

theorem getdent_large (opened : Opened image fs) (large : 2 ^ 31 ≤ image.size) (listsAt : ListsAt image [] f 0)
    (root : f.inode.inodeId = idRoot) (d : Dirent) (nameStack stack : Buffer) :
    getdent (fuel + 1) fs f d nameStack stack = .error .pastBuffer := by
  rw [getdent, if_neg (not_not.mpr listsAt.type), dirName, if_pos root, ok_bind]
  dsimp only
  rw [listsAt.position, Nat.mul_zero, Nat.cast_zero, Int.zero_tdiv, Int.zero_emod, Int.toNat_zero, getdentLoop,
    readHeader_large opened large]
  rfl

def anyDirent : Dirent := ⟨0, false, .dir, fun _ => 0⟩

theorem getdent_overruns_buffer : ∃ (content : List Byte) (length : content.length = 2 ^ 31),
      Laid (largeImage length) 0 [oneFile content] ∧ (largeImage length).size < 2 ^ 32 ∧ Orderly [oneFile content] ∧
      getdent 2 (initrdOpen (largeImage length)) (fsOpen topen (getroot () anyInode) anyFile oDirectory).2 anyDirent
        (fun _ => 0) (fun _ => 0) = .error .pastBuffer := by
  obtain ⟨content, length⟩ := exists_large
  exact ⟨content, length, laid_largeImage length, (largeImage length).below, orderly_oneFile content,
    getdent_large (opened_initrdOpen _) (le_largeImage length) ⟨rfl, rfl, .inl ⟨rfl, rfl⟩⟩ rfl _ _ _⟩

theorem root_staysEnded (small : image.size < 2 ^ 31) (calls : List (Dirent × Buffer × Buffer)) {ended : Bool}
    (listsAt : ListsAt image dir f blk) (root : f.privateData = 0) (ahead : Ahead image dir blk below rest)
    (opened : Opened image fs) (enough : below.length < fuel) (past : ended = true → below = []) :
    StaysEnded fuel ended calls fs f := by
  induction calls generalizing ended f fs blk below with
  | nil => trivial
  | cons call calls ih =>
    obtain ⟨d, nameStack, stack⟩ := call
    obtain ⟨fs', f', d', run, opened', returned⟩ := getdent_ahead listsAt small ahead opened enough d nameStack stack
    refine ⟨fs', f', d', run, ?_⟩
    cases listed : children dir (place blk below) with
    | nil =>
      rw [listed] at returned
      obtain ⟨absent, blk', rfl, ahead'⟩ := returned
      refine ⟨fun _ => absent, ih ⟨listsAt.type, ?_, listsAt.named⟩ root ahead' opened' (Nat.zero_lt_of_lt enough) fun _ => rfl⟩
      rw [root, Int.zero_add]
    | cons child later =>
      rw [listed] at returned
      obtain ⟨present, -, _, _, rfl, ahead', _, -⟩ := returned
      have going : ended ≠ true := by
        intro finished
        rw [past finished] at listed
        cases listed
      refine ⟨fun finished => absurd finished going, ih ⟨listsAt.type, ?_, listsAt.named⟩ root ahead' opened' (by omega) ?_⟩
      · exact add_sub_cancel _ _
      · rw [present]
        simp [going]

theorem file_named : ([0x66] : List Byte) ≠ [] ∧ 0 ∉ ([0x66] : List Byte) ∧ ([0x66] : List Byte).length < 100 := by decide

def lookalike : List Entry :=
  [⟨[0x64, slash], 0, .directory, 0, 0, [], by decide⟩, ⟨[0x66], 0, .regular, 0, 0, [0x64, slash, 0x78], file_named⟩]

theorem orderly_lookalike : Orderly lookalike where
  distinct := by decide
  components := by decide
  slashes := by decide
  bare := by decide
  follow before d behind split directory := by
    match before with
    | [] =>
      obtain ⟨rfl, rfl⟩ := List.cons.inj split
      exact ⟨nofun, [], _, rfl, nofun, by decide⟩
    | [_] =>
      obtain ⟨-, same⟩ := List.cons.inj split
      obtain ⟨rfl, -⟩ := List.cons.inj same
      cases directory
    | _ :: _ :: before =>
      obtain ⟨-, same⟩ := List.cons.inj split
      cases before <;> cases same

end Petix.Proof.Tar
