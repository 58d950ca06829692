import EdgeOS.Lib.Runs
import EdgeOS.PathWalk

namespace EdgeOS

open Lib List AbsPath VfsTables

/-!
The table of mounts under sequences of mounts, `vfs_add_superblock` and `vfs_find_mount` of
`src/vfs/vfs.c`. Every way to mount ends in a superblock whose mount point is the target as the
caller has written it.
-/

def vfsMaxMounts : ℕ := 8

/-- A call of `vfs_mount`, `do_sys_mount` or `do_sys_linux_mount` that has read its file system. -/
structure MountCall where
  target : Bytes
  cwd : Bytes
  root : VfsNode
  fs : Filesystem

def MountCall.superblock (c : MountCall) : Superblock := ⟨c.target, c.root, c.fs⟩

/-- A mounted superblock. `point` is not in the source: it is the normal form of the target. -/
structure Mounted where
  sb : Superblock
  point : Bytes

/-- `g_mounts` and `g_devnodes`. -/
structure MountTable where
  mounts : List Mounted := []
  devnodes : List (Bytes × BitVec 16) := []

def MountTable.tables (t : MountTable) (cwd : Bytes) : VfsTables := ⟨t.mounts.map (·.sb), t.devnodes, cwd⟩

inductive MountEvent
  | mount (c : MountCall)
  /-- The contents of the mounted file systems and the devices change, as by the `vfs_mkdir` of the
  target before a mount. -/
  | files (fs : ℕ → Filesystem) (devnodes : List (Bytes × BitVec 16))

def MountTable.step (t : MountTable) : MountEvent → MountTable
  | .mount c =>
    if t.mounts.length < vfsMaxMounts then
      { t with mounts := t.mounts ++ [⟨c.superblock, normalizePath c.cwd c.target⟩] }
    else t
  | .files fs devnodes => ⟨t.mounts.mapIdx fun i m => { m with sb := { m.sb with fs := fs i } }, devnodes⟩

/-! ## What a mount is for -/

def components (path : Bytes) : List Bytes := (pathParts path).filter (· ≠ [])

def Mounted.Holds (m : Mounted) (p : AbsPath) : Prop := components m.point <+: p.parts

def Mounted.depth (m : Mounted) : ℕ := (components m.point).length

/-- Mount `i` is the newest of those that hold the path with the longest mount point. -/
def MountTable.Picks (t : MountTable) (p : AbsPath) (i : ℕ) (m : Mounted) : Prop :=
  t.mounts[i]? = some m ∧ m.Holds p ∧ ∀ j m', t.mounts[j]? = some m' → m'.Holds p →
    m'.depth < m.depth ∨ m'.depth = m.depth ∧ j ≤ i

/-- `vfs_find_mount` finds that mount. -/
def MountTable.Newest (t : MountTable) : Prop :=
  ∀ (cwd : Bytes) (p : AbsPath) (sb : Superblock),
    (t.tables cwd).findMount p.bytes = some sb ↔ ∃ i m, t.Picks p i m ∧ m.sb = sb

/-- After the mount its target is the new root, the paths below it are walked from there unless a
deeper mount holds them, and all others resolve as before. Devices are found by their names. -/
def MountTable.Shows (t : MountTable) (c : MountCall) : Prop :=
  let t' := t.step (.mount c)
  let point := components (normalizePath c.cwd c.target)
  vfsResolve (t'.tables c.cwd) c.target = some (c.root, some c.superblock) ∧ ∀ (cwd : Bytes) (p : AbsPath),
      if point <+: p.parts then
        (t'.tables cwd).tryResolveDevpath p.bytes = none →
        (∀ m ∈ t.mounts, m.Holds p → m.depth ≤ point.length) → vfsResolve (t'.tables cwd) p.bytes =
            (resolveWalk c.fs c.root (p.parts.drop point.length)).map fun x => (x, some c.superblock)
      else vfsResolve (t'.tables cwd) p.bytes = vfsResolve (t.tables cwd) p.bytes

/-- A mount that the table takes is visible, and every lookup picks the right mount. -/
def MountTable.Visible (t : MountTable) (e : MountEvent) : Prop :=
  (t.step e).Newest ∧ ∀ c, e = .mount c → t.mounts.length < vfsMaxMounts → t.Shows c

/-- The target is written in normal form, is no device, and nothing is mounted there yet. -/
def MountTable.Clear (t : MountTable) (e : MountEvent) : Prop :=
  ∀ c, e = .mount c → t.mounts.length < vfsMaxMounts →
    (∃ p : AbsPath, c.target = p.bytes) ∧ (t.tables c.cwd).tryResolveDevpath c.target = none ∧
      ∀ m ∈ t.mounts, m.sb.mountpoint ≠ c.target

/-! ## Prefixes -/

theorem components_bytes (p : AbsPath) : components p.bytes = p.parts := by
  have hne : ∀ c ∈ p.parts, c ≠ [] := fun c hc => (p.proper c hc).nonempty
  unfold components bytes renderPath
  split
  · rename_i hparts
    rw [hparts]
    decide
  · rw [pathParts_flatMap p.parts p.proper, filter_cons_of_neg (by simp), filter_eq_self.mpr]
    simpa using hne

/-- The bytes behind a name, if there are any, begin with a slash. -/
theorem flatMap_head (cs : List Bytes) : (cs.flatMap fun c => slash :: c) = [] ∧ cs = [] ∨
    (cs.flatMap fun c => slash :: c)[0]? = some slash := by
  cases cs with
  | nil => exact .inl ⟨rfl, rfl⟩
  | cons c cs => exact .inr rfl

/-- Two names with a boundary behind each, one a prefix of the other. -/
theorem prefix_of_names {c d r s : Bytes} (hc : slash ∉ c) (hd : slash ∉ d)
    (hr : r = [] ∨ r[0]? = some slash) (hs : s = [] ∨ s[0]? = some slash)
    (h : c ++ r <+: d ++ s) (hend : (d ++ s).length = (c ++ r).length ∨ (d ++ s)[(c ++ r).length]? = some slash) :
    c = d ∧ r <+: s := by
  induction c generalizing d with
  | nil =>
    cases d with
    | nil => exact ⟨rfl, h⟩
    | cons b d =>
      exfalso
      rcases hr with rfl | hr
      · rcases hend with hlen | hslash
        · simp at hlen
        · rw [append_nil, length_nil] at hslash
          exact hd (by rw [cons_append, getElem?_cons_zero] at hslash
                       rw [Option.some.inj hslash]
                       exact mem_cons_self)
      · obtain ⟨a, r, rfl⟩ := exists_cons_of_ne_nil (l := r) (by rintro rfl; simp at hr)
        have hhead := h.getElem (show 0 < ([] ++ a :: r).length by simp)
        rw [getElem?_cons_zero] at hr
        have hb : a = b := hhead
        exact hd (by rw [← hb, Option.some.inj hr]; exact mem_cons_self)
  | cons a c ih =>
    cases d with
    | nil =>
      exfalso
      rcases hs with rfl | hs
      · exact absurd h.length_le (by simp)
      obtain ⟨b, s, rfl⟩ := exists_cons_of_ne_nil (l := s) (by rintro rfl; simp at hs)
      have hhead := h.getElem (show 0 < (a :: c ++ r).length by simp)
      rw [getElem?_cons_zero] at hs
      have hb : a = b := hhead
      exact hc (by rw [hb, Option.some.inj hs]; exact mem_cons_self)
    | cons b d =>
      rw [cons_append, cons_append, cons_prefix_cons] at h
      obtain ⟨rfl, h⟩ := h
      simp only [cons_append, length_cons, Nat.add_right_cancel_iff, getElem?_cons_succ] at hend
      obtain ⟨rfl, hrest⟩ := ih (fun hmem => hc (mem_cons_of_mem _ hmem))
        (fun hmem => hd (mem_cons_of_mem _ hmem)) h hend
      exact ⟨rfl, hrest⟩

/-- The names of one path begin those of another just when it is a prefix that ends at a boundary. -/
theorem prefix_flatMap {cs ds : List Bytes} (hcs : ∀ c ∈ cs, ProperName c) (hds : ∀ d ∈ ds, ProperName d) : cs <+: ds ↔
      (cs.flatMap fun c => slash :: c) <+: (ds.flatMap fun d => slash :: d) ∧
        ((ds.flatMap fun d => slash :: d).length = (cs.flatMap fun c => slash :: c).length ∨
          (ds.flatMap fun d => slash :: d)[(cs.flatMap fun c => slash :: c).length]? = some slash) := by
  induction cs generalizing ds with
  | nil =>
    refine iff_of_true nil_prefix ⟨ nil_prefix, ?_⟩
    rcases flatMap_head ds with ⟨hnil, -⟩ | hhead
    · exact .inl (by rw [hnil]; rfl)
    · exact .inr hhead
  | cons c cs ih =>
    rw [forall_mem_cons] at hcs
    cases ds with
    | nil => simp
    | cons d ds =>
      rw [forall_mem_cons] at hds
      rw [cons_prefix_cons, flatMap_cons, flatMap_cons, cons_append, cons_append, cons_prefix_cons, ih hcs.2 hds.2]
      have hbound : ∀ es : List Bytes, (es.flatMap fun e => slash :: e) = [] ∨
          (es.flatMap fun e => slash :: e)[0]? = some slash := by
        intro es
        rcases flatMap_head es with ⟨hnil, -⟩ | hhead
        · exact .inl hnil
        · exact .inr hhead
      simp only [length_cons, Nat.add_right_cancel_iff, getElem?_cons_succ, true_and]
      constructor
      · rintro ⟨rfl, hpre, hend⟩
        refine ⟨(prefix_append_right_inj c).mpr hpre, ?_⟩
        simpa [getElem?_append_right] using hend
      · rintro ⟨hpre, hend⟩
        obtain ⟨rfl, hrest⟩ := prefix_of_names hcs.1.noSlash hds.1.noSlash (hbound cs) (hbound ds) hpre hend
        refine ⟨rfl, hrest, ?_⟩
        simpa [getElem?_append_right] using hend

theorem renderPath_cons (c : Bytes) (cs : List Bytes) :
    renderPath (c :: cs) = (c :: cs).flatMap fun c => slash :: c := if_neg (by simp)

/-- A mount point in normal form covers the paths whose names begin with its names. -/
theorem covers_iff {sb : Superblock} {q p : AbsPath} (h : sb.mountpoint = q.bytes) :
    sb.covers p.bytes = true ↔ q.parts <+: p.parts := by
  unfold Superblock.covers
  rw [h, decide_eq_true_iff, isPrefixOf_iff_prefix]
  rcases hq : q.parts with _ | ⟨c, cs⟩
  · have hroot : q.bytes = [slash] := by
      unfold bytes
      rw [hq]
      rfl
    rw [hroot]
    refine iff_of_true ⟨?_, .inr (.inr rfl)⟩ nil_prefix
    obtain ⟨b, bs, hb⟩ := exists_cons_of_ne_nil (l := p.bytes) (by
      intro hnil
      have hhead := p.head_bytes
      rw [hnil] at hhead
      simp at hhead)
    have hhead := p.head_bytes
    rw [hb] at hhead ⊢
    rw [Option.some.inj hhead, cons_prefix_cons]
    exact ⟨rfl, nil_prefix⟩
  · have hproper : ∀ d ∈ c :: cs, ProperName d := by
      rw [← hq]
      exact q.proper
    have hbytes : q.bytes = (c :: cs).flatMap fun c => slash :: c := by
      unfold bytes
      rw [hq, renderPath_cons]
    have hlong : q.bytes.length ≠ 1 := by
      have hc := length_pos_iff.mpr (hproper c mem_cons_self).nonempty
      rw [hbytes, flatMap_cons, length_append, length_cons]
      omega
    rw [or_iff_left hlong]
    rcases hp : p.parts with _ | ⟨d, ds⟩
    · have hroot : p.bytes = [slash] := by
        unfold bytes
        rw [hp]
        rfl
      rw [hroot]
      refine iff_of_false ?_ (by simp)
      rintro ⟨hpre, -⟩
      have hle : q.bytes.length ≤ 1 := hpre.length_le
      have hpos : 0 < q.bytes.length := by
        rw [hbytes]
        simp
      omega
    · have hpbytes : p.bytes = (d :: ds).flatMap fun c => slash :: c := by
        unfold bytes
        rw [hp, renderPath_cons]
      rw [hbytes, hpbytes]
      refine (prefix_flatMap hproper ?_).symm
      rw [← hp]
      exact p.proper

theorem prefix_bytes {q p : AbsPath} (h : q.parts <+: p.parts) : q.bytes <+: p.bytes := by
  have hcovers : Superblock.covers ⟨q.bytes, {}, .fat32 []⟩ p.bytes = true := (covers_iff rfl).mpr h
  unfold Superblock.covers at hcovers
  exact isPrefixOf_iff_prefix.mp (of_decide_eq_true hcovers).1

theorem parts_eq {q p : AbsPath} (h : q.bytes = p.bytes) : q.parts = p.parts := by
  rw [← components_bytes q, h, components_bytes]

/-- Of two mount points that hold a path the longer one has more names. -/
theorem length_bytes_le {q r p : AbsPath} (hq : q.parts <+: p.parts) (hr : r.parts <+: p.parts) :
    q.bytes.length ≤ r.bytes.length ↔ q.parts.length ≤ r.parts.length := by
  rcases prefix_or_prefix_of_prefix hq hr with h | h
  · exact iff_of_true (prefix_bytes h).length_le h.length_le
  constructor
  · intro hle
    rw [parts_eq ((prefix_bytes h).eq_of_length_le hle)]
  · intro hle
    have hparts := h.eq_of_length_le hle
    unfold bytes
    rw [hparts]

/-! ## The search -/

theorem findMount_snoc (mounts : List Superblock) (x : Superblock) (devnodes : List (Bytes × BitVec 16))
    (cwd path : Bytes) :
    findMount ⟨mounts ++ [x], devnodes, cwd⟩ path =
      if x.covers path ∧ ∀ b ∈ findMount ⟨mounts, devnodes, cwd⟩ path,
        b.mountpoint.length < x.mountpoint.length
      then some x else findMount ⟨mounts, devnodes, cwd⟩ path := by
  unfold findMount
  rw [foldl_append]
  rfl

/-- `vfs_find_mount` finds one of the longest mount points that cover the path, if there are any. -/
theorem findMount_longest (v : VfsTables) (path : Bytes) :
    (v.findMount path = none → ∀ sb ∈ v.mounts, sb.covers path = false) ∧
      ∀ sb, v.findMount path = some sb → sb ∈ v.mounts ∧ sb.covers path = true ∧
        ∀ sb' ∈ v.mounts, sb'.covers path = true → sb'.mountpoint.length ≤ sb.mountpoint.length := by
  obtain ⟨mounts, devnodes, cwd⟩ := v
  induction mounts using reverseRecOn with
  | nil => exact ⟨fun _ sb hsb => by simp at hsb, fun sb hsb => by simp [findMount] at hsb⟩
  | append_singleton mounts x ih =>
    dsimp only at ih ⊢
    rw [findMount_snoc]
    obtain ⟨hnone, hsome⟩ := ih
    split
    · rename_i hx
      refine ⟨fun h => by simp at h, fun sb hsb => ?_⟩
      obtain rfl := Option.some.inj hsb
      refine ⟨by simp, hx.1, fun sb' hmem hcovers => ?_⟩
      rcases mem_append.mp hmem with hold | hnew
      · rcases hfind : findMount ⟨mounts, devnodes, cwd⟩ path with _ | b
        · rw [hnone hfind sb' hold] at hcovers
          exact absurd hcovers (by simp)
        · have hle := (hsome b hfind).2.2 sb' hold hcovers
          have hlt := hx.2 b hfind
          omega
      · rw [mem_singleton.mp hnew]
    · rename_i hx
      refine ⟨fun h sb hmem => ?_, fun sb hsb => ?_⟩
      · rcases mem_append.mp hmem with hold | hnew
        · exact hnone h sb hold
        · rw [mem_singleton.mp hnew, ← Bool.not_eq_true]
          intro hcovers
          refine hx ⟨hcovers, fun b hb => ?_⟩
          rw [h] at hb
          simp at hb
      · obtain ⟨hmem, hcovers, hle⟩ := hsome sb hsb
        refine ⟨mem_append_left _ hmem, hcovers, fun sb' hmem' hcovers' => ?_⟩
        rcases mem_append.mp hmem' with hold | hnew
        · exact hle sb' hold hcovers'
        rw [mem_singleton.mp hnew] at hcovers' ⊢
        by_contra hlt
        refine hx ⟨hcovers', fun b hb => ?_⟩
        rw [hsb] at hb
        rw [← Option.some.inj hb]
        omega

/-! ## Runs of mounts -/

/-- The mount points are written in normal form, and no two are the same. -/
structure MountTable.Proper (t : MountTable) : Prop where
  normal : ∀ m ∈ t.mounts, ∃ q : AbsPath, m.sb.mountpoint = q.bytes ∧ m.point = q.bytes
  distinct : t.mounts.Pairwise fun m m' => m.point ≠ m'.point

namespace MountTable.Proper

variable {t : MountTable}

theorem covers (h : t.Proper) {m : Mounted} (hm : m ∈ t.mounts) (p : AbsPath) :
    m.sb.covers p.bytes = true ↔ m.Holds p := by
  obtain ⟨q, hsb, hpoint⟩ := h.normal m hm
  unfold Mounted.Holds
  rw [covers_iff hsb, hpoint, components_bytes]

theorem length_le (h : t.Proper) {m m' : Mounted} (hm : m ∈ t.mounts) (hm' : m' ∈ t.mounts) {p : AbsPath}
    (hp : m.Holds p) (hp' : m'.Holds p) :
    m'.sb.mountpoint.length ≤ m.sb.mountpoint.length ↔ m'.depth ≤ m.depth := by
  obtain ⟨q, hsb, hpoint⟩ := h.normal m hm
  obtain ⟨r, hsb', hpoint'⟩ := h.normal m' hm'
  unfold Mounted.Holds at hp hp'
  unfold Mounted.depth
  rw [hpoint, components_bytes] at hp ⊢
  rw [hpoint', components_bytes] at hp' ⊢
  rw [hsb, hsb']
  exact length_bytes_le hp' hp

/-- Mount points of one depth that hold the same path are one. -/
theorem index_eq (h : t.Proper) {i j : ℕ} {m m' : Mounted} (hi : t.mounts[i]? = some m)
    (hj : t.mounts[j]? = some m') {p : AbsPath} (hp : m.Holds p) (hp' : m'.Holds p)
    (hdepth : m'.depth = m.depth) : i = j := by
  obtain ⟨hilt, hieq⟩ := List.getElem?_eq_some_iff.mp hi
  obtain ⟨hjlt, hjeq⟩ := List.getElem?_eq_some_iff.mp hj
  obtain ⟨q, -, hpoint⟩ := h.normal m (hieq ▸ getElem_mem hilt)
  obtain ⟨r, -, hpoint'⟩ := h.normal m' (hjeq ▸ getElem_mem hjlt)
  have hsame : m.point = m'.point := by
    unfold Mounted.Holds at hp hp'
    unfold Mounted.depth at hdepth
    rw [hpoint, components_bytes] at hp hdepth
    rw [hpoint', components_bytes] at hp' hdepth
    have hparts := (prefix_of_prefix_length_le hp' hp hdepth.le).eq_of_length hdepth
    rw [hpoint, hpoint']
    unfold bytes
    rw [hparts]
  by_contra hne
  rcases Nat.lt_or_gt_of_ne hne with hlt | hlt
  · exact pairwise_iff_getElem.mp h.distinct i j hilt hjlt hlt (by rw [hieq, hjeq, hsame])
  · exact pairwise_iff_getElem.mp h.distinct j i hjlt hilt hlt (by rw [hieq, hjeq, hsame])

theorem newest (h : t.Proper) : t.Newest := by
  intro cwd p sb
  obtain ⟨hnone, hsome⟩ := findMount_longest (t.tables cwd) p.bytes
  have hmem : ∀ i m, t.mounts[i]? = some m → m ∈ t.mounts := fun i m hm => mem_of_getElem? hm
  have htables : (t.tables cwd).mounts = t.mounts.map (·.sb) := rfl
  -- what is found is the mount that the specification picks
  have hpicks : ∀ sb, (t.tables cwd).findMount p.bytes = some sb → ∃ i m, t.Picks p i m ∧ m.sb = sb := by
    intro sb hfind
    obtain ⟨hin, hcovers, hle⟩ := hsome sb hfind
    rw [htables] at hin
    obtain ⟨m, hm, rfl⟩ := mem_map.mp hin
    obtain ⟨i, hi⟩ := mem_iff_getElem?.mp hm
    have hp := (h.covers hm p).mp hcovers
    refine ⟨i, m, ⟨hi, hp, fun j m' hj hp' => ?_⟩, rfl⟩
    have hm' := hmem j m' hj
    have hlen := hle m'.sb (mem_map_of_mem hm') ((h.covers hm' p).mpr hp')
    have hdepth := (h.length_le hm hm' hp hp').mp hlen
    rcases Nat.lt_or_eq_of_le hdepth with hlt | heq
    · exact .inl hlt
    · exact .inr ⟨heq, (h.index_eq hi hj hp hp' heq).ge⟩
  refine ⟨hpicks sb, ?_⟩
  rintro ⟨i, m, ⟨hi, hp, hmax⟩, rfl⟩
  rcases hfind : (t.tables cwd).findMount p.bytes with _ | sb'
  · have hcovers := hnone hfind m.sb (mem_map_of_mem (hmem i m hi))
    rw [(h.covers (hmem i m hi) p).mpr hp] at hcovers
    exact absurd hcovers (by simp)
  obtain ⟨j, m', ⟨hj, hp', hmax'⟩, rfl⟩ := hpicks sb' hfind
  have hdepth : m'.depth = m.depth := by
    rcases hmax j m' hj hp' with hlt | ⟨heq, -⟩
    · rcases hmax' i m hi hp with hlt' | ⟨heq', -⟩
      · omega
      · exact heq'.symm
    · exact heq
  obtain rfl := h.index_eq hi hj hp hp' hdepth
  rw [hi] at hj
  rw [Option.some.inj hj]

/-- A step that meets the condition keeps the mount points proper. -/
theorem step (h : t.Proper) (e : MountEvent) (hclear : t.Clear e) : (t.step e).Proper := by
  cases e with
  | mount c =>
    unfold MountTable.step
    dsimp only
    split
    · rename_i hroom
      obtain ⟨⟨q, hq⟩, -, hfree⟩ := hclear c rfl hroom
      have hpoint : normalizePath c.cwd c.target = q.bytes := by rw [hq, normalizePath_abs]
      refine ⟨fun m hm => ?_, ?_⟩
      · rcases mem_append.mp hm with hold | hnew
        · exact h.normal m hold
        · rw [mem_singleton.mp hnew]
          exact ⟨q, hq, hpoint⟩
      · refine pairwise_append.mpr ⟨h.distinct, pairwise_singleton _ _, fun m hm m' hm' => ?_⟩
        rw [mem_singleton.mp hm']
        obtain ⟨r, hsb, hr⟩ := h.normal m hm
        have hne := hfree m hm
        rw [hsb, ← hr, hq, ← hpoint] at hne
        exact hne
    · exact h
  | files fs devnodes =>
    refine ⟨fun m hm => ?_, ?_⟩
    · obtain ⟨i, hi, rfl⟩ := mem_mapIdx.mp hm
      exact h.normal t.mounts[i] (getElem_mem hi)
    · refine pairwise_iff_getElem.mpr fun i j hi hj hij => ?_
      simp only [MountTable.step, getElem_mapIdx]
      exact pairwise_iff_getElem.mp h.distinct i j _ _ hij

end MountTable.Proper

/-! ## What is below a mount point -/

theorem components_flatMap {cs : List Bytes} (hcs : ∀ c ∈ cs, ProperName c) :
    components (cs.flatMap fun c => slash :: c) = cs ∧ components ((cs.flatMap fun c => slash :: c).drop 1) = cs := by
  have hfilter : cs.filter (· ≠ []) = cs :=
    filter_eq_self.mpr fun c hc => by simpa using (hcs c hc).nonempty
  have hparts := pathParts_flatMap cs hcs
  unfold components
  constructor
  · rw [hparts, filter_cons_of_neg (by simp), hfilter]
  · cases cs with
    | nil => rfl
    | cons c cs =>
      have hcons : ((c :: cs).flatMap fun c => slash :: c) =
          slash :: ((c :: cs).flatMap fun c => slash :: c).drop 1 := rfl
      unfold pathParts at hparts ⊢
      rw [hcons, ← nil_append (slash :: _), splitOn_append_cons_self] at hparts
      have hroot : splitOn slash [] = [[]] := rfl
      rw [hroot, singleton_append] at hparts
      rw [(cons.inj hparts).2, hfilter]

theorem AbsPath.below_eq {sb : Superblock} {q p : AbsPath} (h : sb.mountpoint = q.bytes)
    (hpre : q.parts <+: p.parts) : p.below sb = p.parts.drop q.parts.length := by
  obtain ⟨rest, hrest⟩ := hpre
  have hproper : ∀ c ∈ rest, ProperName c := fun c hc => p.proper c (by rw [← hrest]; simp [hc])
  obtain ⟨hnames, htail⟩ := components_flatMap hproper
  rw [← hrest, drop_left]
  change components (sb.below p.bytes) = rest
  unfold Superblock.below
  rw [h]
  rcases hq : q.parts with _ | ⟨c, cs⟩
  · have hroot : q.bytes = [slash] := by
      unfold bytes
      rw [hq]
      rfl
    have hp : p.parts = rest := by rw [← hrest, hq, nil_append]
    rw [hroot, if_pos (length_singleton)]
    unfold bytes renderPath
    rw [hp]
    split
    · rename_i hnil
      rw [hnil]
      decide
    · exact htail
  · have hqbytes : q.bytes = (c :: cs).flatMap fun c => slash :: c := by
      unfold bytes
      rw [hq, renderPath_cons]
    have hpbytes : p.bytes = q.bytes ++ rest.flatMap fun c => slash :: c := by
      rw [hqbytes]
      unfold bytes
      rw [← hrest, hq, cons_append, renderPath_cons, ← cons_append, flatMap_append]
    have hlong : q.bytes.length ≠ 1 := by
      have hc := length_pos_iff.mpr (q.proper c (by rw [hq]; exact mem_cons_self)).nonempty
      rw [hqbytes, flatMap_cons, length_append, length_cons]
      omega
    rw [if_neg hlong, hpbytes, drop_append]
    split
    · rw [drop_of_length_le (by omega), nil_append, Nat.add_sub_cancel_left]
      exact htail
    · rw [drop_left]
      exact hnames

/-! ## The mount that has just been made -/

section Shows

variable {t : MountTable} {c : MountCall}

theorem vfsResolve_found {v : VfsTables} {p : AbsPath} {sb : Superblock} {q : AbsPath}
    (hdev : v.tryResolveDevpath p.bytes = none) (hfind : v.findMount p.bytes = some sb)
    (hsb : sb.mountpoint = q.bytes) (hpre : q.parts <+: p.parts) :
    vfsResolve v p.bytes = (resolveWalk sb.fs sb.root (p.parts.drop q.parts.length)).map fun x => (x, some sb) := by
  unfold vfsResolve
  dsimp only
  rw [normalizePath_abs, hdev]
  dsimp only
  rw [hfind]
  dsimp only
  rw [resolveWalk_below, below_eq hsb hpre]

/-- The mount points of a proper table, and a new one that is proper in it. -/
theorem MountTable.Proper.shows (h : t.Proper) (hclear : t.Clear (.mount c))
    (hroom : t.mounts.length < vfsMaxMounts) : t.Shows c := by
  obtain ⟨⟨q, hq⟩, hdevice, -⟩ := hclear c rfl hroom
  have hpoint : normalizePath c.cwd c.target = q.bytes := by rw [hq, normalizePath_abs]
  have hproper := h.step _ hclear
  have hstep : t.step (.mount c) =
      { t with mounts := t.mounts ++ [⟨c.superblock, normalizePath c.cwd c.target⟩] } := if_pos hroom
  -- the new mount is picked for the paths that no deeper mount holds
  have hbelow : ∀ (cwd : Bytes) (p : AbsPath), q.parts <+: p.parts → (t.tables cwd).tryResolveDevpath p.bytes = none →
      (∀ m ∈ t.mounts, m.Holds p → m.depth ≤ q.parts.length) →
      vfsResolve ((t.step (.mount c)).tables cwd) p.bytes =
        (resolveWalk c.fs c.root (p.parts.drop q.parts.length)).map fun x => (x, some c.superblock) := by
    intro cwd p hpre hdev hdeep
    have hfind : ((t.step (.mount c)).tables cwd).findMount p.bytes = some c.superblock := by
      refine (hproper.newest cwd p c.superblock).mpr
        ⟨t.mounts.length, ⟨c.superblock, normalizePath c.cwd c.target⟩, ⟨?_, ?_, ?_⟩, rfl⟩
      · rw [hstep]
        exact getElem?_concat_length
      · unfold Mounted.Holds
        rw [hpoint, components_bytes]
        exact hpre
      · intro j m' hj hholds
        have hdepth : (⟨c.superblock, normalizePath c.cwd c.target⟩ : Mounted).depth = q.parts.length := by
          unfold Mounted.depth
          rw [hpoint, components_bytes]
        rw [hdepth]
        rw [hstep] at hj
        rcases mem_append.mp (mem_of_getElem? hj) with hold | hnew
        · have hle := hdeep m' hold hholds
          have hjlt := (List.getElem?_eq_some_iff.mp hj).1
          rw [length_append, length_singleton] at hjlt
          omega
        have hjlt := (List.getElem?_eq_some_iff.mp hj).1
        rw [length_append, length_singleton] at hjlt
        rw [mem_singleton.mp hnew, hdepth]
        omega
    have hdev' : ((t.step (.mount c)).tables cwd).tryResolveDevpath p.bytes = none := by
      rw [hstep]
      exact hdev
    exact vfsResolve_found hdev' hfind hq hpre
  have hshort : ∀ (p : AbsPath), ∀ m : Mounted, m.Holds p → m.depth ≤ p.parts.length :=
    fun p m hholds => hholds.length_le
  unfold MountTable.Shows
  dsimp only
  rw [hpoint, components_bytes]
  refine ⟨?_, fun cwd p => ?_⟩
  · rw [hq, hbelow c.cwd q (prefix_rfl) (by rw [← hq]; exact hdevice) fun m _ => hshort q m, drop_length]
    rfl
  · split
    · rename_i hpre
      intro hdev hdeep
      refine hbelow cwd p hpre ?_ hdeep
      rw [hstep] at hdev
      exact hdev
    · rename_i hpre
      have hcovers : ¬ c.superblock.covers p.bytes = true := fun hc => hpre ((covers_iff hq).mp hc)
      have hfind : ((t.step (.mount c)).tables cwd).findMount p.bytes = (t.tables cwd).findMount p.bytes := by
        rw [hstep]
        unfold MountTable.tables
        rw [map_append]
        exact (findMount_snoc _ _ _ _ _).trans (if_neg fun hboth => hcovers hboth.1)
      have hdev : ((t.step (.mount c)).tables cwd).tryResolveDevpath p.bytes =
          (t.tables cwd).tryResolveDevpath p.bytes := by
        rw [hstep]
        rfl
      unfold vfsResolve
      dsimp only
      rw [normalizePath_abs, normalizePath_abs, hdev, hfind]

end Shows

/-- While every target is written in normal form, is no device and is free, every mount is visible
at its target, and lookups pick the newest of the longest mount points. -/
theorem mounts_visible (devnodes : List (Bytes × BitVec 16)) (es : List MountEvent)
    (hclear : Meets MountTable.step MountTable.Clear { devnodes := devnodes } es) :
    Meets MountTable.step MountTable.Visible { devnodes := devnodes } es := by
  refine meets_of_invariant (I := MountTable.Proper) (fun _ e h hok => h.step e hok) ?_ ?_ hclear
  · rintro t e h hok
    refine ⟨(h.step e hok).newest, ?_⟩
    rintro c rfl hroom
    exact h.shows hok hroom
  · exact ⟨by simp, List.Pairwise.nil⟩

def emptyMount (target : Bytes) : MountEvent :=
  .mount ⟨target, ascii "/", { ino := 1, mode := 0x41FF }, .fat32 [{ used := true, isDir := true }]⟩

def rootPath : AbsPath where
  parts := []
  proper := by simp
  fits := by decide

/-- `/mnt`. -/
def mntPath : AbsPath where
  parts := [[109, 110, 116]]
  proper := by
    intro c hc
    rw [List.mem_singleton.mp hc]
    exact ⟨by decide, by decide, by decide, by decide, by decide⟩
  fits := by decide

theorem mounts_visible_root_mnt :
    Meets MountTable.step MountTable.Clear {} [emptyMount rootPath.bytes, emptyMount mntPath.bytes] ∧
      Meets MountTable.step MountTable.Visible {} [emptyMount rootPath.bytes, emptyMount mntPath.bytes] := by
  have hclear : Meets MountTable.step MountTable.Clear {} [emptyMount rootPath.bytes, emptyMount mntPath.bytes] := by
    refine ⟨?_, ?_, trivial⟩
    · intro c hc _
      obtain rfl := MountEvent.mount.inj hc
      exact ⟨⟨rootPath, rfl⟩, by decide +kernel, by simp⟩
    · intro c hc _
      obtain rfl := MountEvent.mount.inj hc
      refine ⟨⟨mntPath, rfl⟩, by decide +kernel, ?_⟩
      intro m hm
      obtain rfl := List.mem_singleton.mp hm
      change rootPath.bytes ≠ mntPath.bytes
      decide
  exact ⟨hclear, mounts_visible [] _ hclear⟩

/-- A target with a slash at its end is never found again. -/
theorem trailing_slash_hidden :
    ¬ Meets MountTable.step MountTable.Visible {} [emptyMount (ascii "/"), emptyMount (ascii "/mnt/")] := by
  rintro ⟨-, ⟨-, hshows⟩, -⟩
  obtain ⟨hroot, -⟩ := hshows _ rfl (by decide)
  have hsome := congrArg Option.isSome hroot
  revert hsome
  decide +kernel

end EdgeOS
