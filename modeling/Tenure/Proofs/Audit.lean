import Tenure.Proofs.Accounts
import Tenure.Proofs.Compaction
import Tenure.Proofs.Traversal

/-!
# What an audit tells

An audit of a well-formed heap gives the number of nodes of its graph. If headers of some objects
were overwritten with tags that have no type, it fails just if it comes across one of these. As a
collection keeps the graph, it keeps what an audit tells. Main statement: `audit_counts_reachable`.
-/

namespace Tenure

namespace Memory

/-- The memory is `m`, but for the headers of some objects, those at `bad`. These were overwritten
with direct headers whose tags have no type. -/
structure Defaced (m : Memory) (table : TypeTable) (os : List Span) (bad : Set Nat)
    (m' : Memory) : Prop where
  size : m'.size = m.size
  object : ∀ a ∈ bad, IsObject os a
  direct : ∀ a ∈ bad, (m'.header a).isIndirection = false
  untyped : ∀ a ∈ bad, table.contains (m'.header a).tagBits = false
  read : ∀ a, a ∉ bad → m'.read a = m.read a

variable {m m' : Memory} {table : TypeTable} {padding : Bool} {os : List Span} {bad : Set Nat}
  {starts : List Nat} {s : Span} {f : Form} {part : Part} {a d : Nat}

/-- Nothing was overwritten. -/
theorem Defaced.refl (m : Memory) (table : TypeTable) (os : List Span) :
    m.Defaced table os ∅ m where
  size := rfl
  object := fun _ ha ↦ ha.elim
  direct := fun _ ha ↦ ha.elim
  untyped := fun _ ha ↦ ha.elim
  read := fun _ _ ↦ rfl

/-- Each object has a word of its own. -/
theorem WellFormed.length_le (hw : m.WellFormed table padding os) : os.length ≤ m.size := by
  have hwords : os.length ≤ Span.total os := by
    rw [Span.total, ← List.length_map Span.words]
    apply List.length_le_sum_of_one_le
    intro n hn
    obtain ⟨s, hs, rfl⟩ := List.mem_map.mp hn
    exact hw.nonempty s hs
  have htotal : Span.total os ≤ m.endAddr - firstAddr := by
    apply Span.total_le_of_apart hw.apart
    intro s hs
    have hpos := hw.nonempty s hs
    have hlast := (hw.mapped s hs (s.words - 1) (by omega)).2
    exact ⟨(hw.mapped_start hs).1, by rw [Span.stop]; omega⟩
  rw [endAddr] at htotal
  omega

/-- A header is overwritten. -/
theorem WellFormed.defaced_writeHeader {tag size : Nat} (hw : m.WellFormed table padding os)
    (ha : IsObject os a) (tail : TailLayout) (ht : tag ≤ maxTag) (hs : size ≤ maxTailSize)
    (hc : table.contains tag = false) :
    m.Defaced table os {a} (m.writeHeader a (.pack tag size tail)) := by
  have hheader : (m.writeHeader a (.pack tag size tail)).header a = .pack tag size tail := by
    rw [Memory.header, writeHeader, read_write_self _ (hw.mapped_of_isObject ha)]
  obtain ⟨hdir, htag, -⟩ := direct_fields (Header.decode_pack tail ht hs)
  refine ⟨size_write .., ?_, ?_, ?_, fun b hb ↦ read_write_of_ne _ (Ne.symm hb)⟩
  · rintro _ rfl
    exact ha
  · rintro _ rfl
    rw [hheader, hdir]
  · rintro _ rfl
    rw [hheader, htag, hc]

namespace Defaced

variable (hw : m.WellFormed table padding os) (hd : m.Defaced table os bad m')
include hd

/-- An object that still has a form has the header that it had. -/
theorem not_mem_of_form? (hf : m'.form? table a = some f) : a ∉ bad := by
  intro ha
  have hc := hd.untyped a ha
  rw [tagBits_of_form? hf, contains_of_form? hf] at hc
  cases hc

private theorem direct_of_form? (hs : s ∈ os) (hf : m'.form? table s.start = some f) :
    m.Direct table os s f :=
  ⟨hs, by rw [← form?_congr (hd.read _ (hd.not_mem_of_form? hf)), hf]⟩

include hw

/-- The parts of the objects are where they were, and hold what they held. -/
theorem read_cell (hf : m.Direct table os s f) (hp : f.Has part) :
    m'.read (f.cell m' s.start part) = m.read (f.cell m s.start part) := by
  have hread : ∀ {part}, f.Has part →
      m'.read (f.cell m s.start part) = m.read (f.cell m s.start part) := by
    intro part hp
    apply hd.read
    intro hbad
    obtain ⟨t, ht, he⟩ := hd.object _ hbad
    exact hw.cell_ne_start hf hp ht he.symm
  rw [Form.cell_congr fun ht ↦ hread (show f.Has .link from ht)]
  exact hread hp

/-- A reference to an object leads to one, be it that its header was overwritten. -/
theorem exists_leads (ha : IsObject os a) : ∃ d, m'.Leads a d ∧ IsObject os d := by
  obtain ⟨s, hs, rfl⟩ := ha
  obtain ⟨t, g, hl, hg⟩ := hw.leads_of_mem hs
  have hbad : ∀ a ∈ bad, m'.Leads a a := fun a ha ↦ .here (hop?_eq_none_iff.mpr (hd.direct a ha))
  -- The chain that there was, up to the first header that was overwritten.
  refine hl.induction (motive := fun a ↦ IsObject os a → ∃ d, m'.Leads a d ∧ IsObject os d)
    (fun hn ho ↦ ⟨_, ?_, ho⟩) (fun a b hhop _ ih ho ↦ ?_) (.of_mem hs)
  · by_cases hb : t.start ∈ bad
    · exact hbad _ hb
    · exact .here ((hop?_congr (hd.read _ hb)).trans hn)
  · by_cases hb : a ∈ bad
    · exact ⟨a, hbad a hb, ho⟩
    · obtain ⟨d, hl', hd'⟩ := ih (hw.valid_of_hop? ho hhop).denotes.1
      exact ⟨d, .hop ((hop?_congr (hd.read _ hb)).trans hhop) hl', hd'⟩

variable (hstarts : ∀ a ∈ starts, IsObject os a)
include hstarts

/-- References lead to direct objects only. -/
theorem isObject_of_reachable (hr : m'.Reachable table starts d) :
    IsObject os d ∧ m'.hop? d = none := by
  have hresolve : ∀ {a}, IsObject os a →
      IsObject os (m'.resolve a) ∧ m'.hop? (m'.resolve a) = none := by
    intro a ha
    obtain ⟨d, hl, ho⟩ := hd.exists_leads hw ha
    rw [hl.resolve]
    exact ⟨ho, hl.hop?_eq_none⟩
  induction hr with
  | start ha => exact hresolve (hstarts _ ha)
  | slot _ hf hp ha ih =>
    obtain ⟨⟨s, hs, rfl⟩, -⟩ := ih
    have hdir := hd.direct_of_form? hs hf
    rw [hd.read_cell hw hdir hp.has] at ha
    exact hresolve (hw.isObject_of_slot hdir hp ha)

private theorem navigable : m'.Navigable table starts (os.map Span.start).toFinset where
  mem := by
    intro d hr
    obtain ⟨⟨s, hs, rfl⟩, -⟩ := hd.isObject_of_reachable hw hstarts hr
    rw [List.mem_toFinset]
    exact List.mem_map_of_mem hs
  direct := fun d hr ↦ (hd.isObject_of_reachable hw hstarts hr).2
  link := by
    intro d f hr hf ht
    obtain ⟨⟨s, hs, rfl⟩, -⟩ := hd.isObject_of_reachable hw hstarts hr
    have hdir := hd.direct_of_form? hs hf
    obtain ⟨t, g, hg, hl, -⟩ := hw.block s f hdir ht
    rw [hd.read_cell hw hdir (show f.Has .link from ht), hl]
    exact (hw.mapped_start hg.mem).ofAddr_ne_null

/-- The tags without a type are those that were written. -/
theorem contains_eq_false_iff (hr : m'.Reachable table starts d) :
    table.contains (m'.header d).tagBits = false ↔ d ∈ bad := by
  refine ⟨fun hc ↦ ?_, hd.untyped d⟩
  obtain ⟨⟨s, hs, rfl⟩, hn⟩ := hd.isObject_of_reachable hw hstarts hr
  by_contra hb
  rcases hw.header s hs with ⟨f, hf⟩ | ⟨a, ha, hv⟩
  · rw [← form?_congr (hd.read _ hb)] at hf
    rw [tagBits_of_form? hf, contains_of_form? hf] at hc
    cases hc
  · rw [hop?_of_read ((hd.read _ hb).trans ha) (hw.lt_limit hv.denotes.1)] at hn
    cases hn

end Defaced

end Memory

namespace Heap

/-- An audit gives the number of elements of a finite set. -/
def Tallies (h : Heap) (ds : Set Nat) : Prop := ds.Finite ∧ h.audit = .ok ds.ncard

/-- An audit fails just if one of the objects at `bad` can be reached, and then it tells the tag of
such one. Otherwise it gives the number of objects that can be reached. -/
structure Detects (h : Heap) (bad : Set Nat) : Prop where
  fatal : (∃ tag, h.audit = .error (.fatal (.heapCorruption tag h.table.size))) ↔
    ∃ d ∈ bad, h.memory.Reachable h.table h.roots.toList d
  tag : ∀ e, h.audit = .error e → ∃ d ∈ bad, h.memory.Reachable h.table h.roots.toList d ∧
    e = .fatal (.heapCorruption (h.memory.header d).tagBits h.table.size)
  count : (¬ ∃ d ∈ bad, h.memory.Reachable h.table h.roots.toList d) →
    h.Tallies (h.memory.reachableObjects h.table h.roots.toList)

variable {h h' : Heap} {l l' : Census} {padding : Bool} {os ts : List Span} {bad : Set Nat}
  {m : Memory} {φ : Nat → Nat} {d : Nat}

/-- An audit has the fuel that it needs. -/
theorem audited (hw : m.WellFormed h.table padding os)
    (hd : m.Defaced h.table os bad h.memory) (hroots : ∀ a ∈ h.roots.toList, IsObject os a) :
    h.memory.Audited h.table h.roots.toList h.audit := by
  apply (hd.navigable hw hroots).countObjects
  have hcard : (os.map Span.start).toFinset.card ≤ h.roots.size + h.memory.size := by
    have hlist := List.toFinset_card_le (os.map Span.start)
    have := hw.length_le
    rw [List.length_map] at hlist
    rw [hd.size]
    omega
  have := Nat.mul_le_mul_right h.table.slotBound hcard
  rw [RootStack.length_toList]
  omega

private theorem detects (hw : m.WellFormed h.table padding os)
    (hd : m.Defaced h.table os bad h.memory) (hroots : ∀ a ∈ h.roots.toList, IsObject os a) :
    h.Detects bad := by
  rcases audited hw hd hroots with ⟨d, hr, hc, he⟩ | ⟨hall, he⟩
  · have hbad := (hd.contains_eq_false_iff hw hroots hr).mp hc
    refine ⟨⟨fun _ ↦ ⟨d, hbad, hr⟩, fun _ ↦ ⟨_, he⟩⟩, fun e he' ↦ ?_, fun hn ↦ ?_⟩
    · rw [he] at he'
      cases he'
      exact ⟨d, hbad, hr, rfl⟩
    · exact absurd ⟨d, hbad, hr⟩ hn
  · have hnone : ¬ ∃ d ∈ bad, h.memory.Reachable h.table h.roots.toList d := by
      rintro ⟨d, hb, hr⟩
      have := hall d hr
      rw [hd.untyped d hb] at this
      cases this
    refine ⟨⟨?_, fun hr ↦ absurd hr hnone⟩, fun e he' ↦ ?_, fun _ ↦ he⟩
    · rintro ⟨tag, he'⟩
      rw [he.2] at he'
      cases he'
    · rw [he.2] at he'
      cases he'

/-! ### The nodes of the graph -/

section WellFormed

variable (hw : h.memory.WellFormed h.table padding os)
  (hroots : ∀ a ∈ h.roots.toList, h.memory.Valid h.table os a)
include hw hroots

private theorem Live.reachable (hd : h.Live d) : h.memory.Reachable h.table h.roots.toList d := by
  induction hd with
  | root ha => exact .start ha
  | @field d e c hd hc he ih =>
    obtain ⟨s, f, hf, rfl, hb⟩ := hd.direct hw hroots
    obtain ⟨part, hp, hden⟩ := (Memory.mem_references_view hf.form? hb hc).mp he
    obtain ⟨a, ha, rfl⟩ := Option.map_eq_some_iff.mp hden
    exact .slot ih hf.form? (.inl hp) ha

/-- What can be reached is a node or a block. -/
theorem live_or_isBlock_of_reachable (hr : h.memory.Reachable h.table h.roots.toList d) :
    ∃ s f, h.memory.Direct h.table os s f ∧ s.start = d ∧ (¬ f.IsBlock → h.Live d) := by
  induction hr with
  | start ha =>
    obtain ⟨-, -, s, f, hf, he, -⟩ := (hroots _ ha).denotes
    exact ⟨s, f, hf, he, fun _ ↦ .root ha⟩
  | @slot _ a g part _ hg hp ha ih =>
    obtain ⟨s, f, hf, rfl, hlive⟩ := ih
    obtain rfl : f = g := Option.some.inj (hf.form?.symm.trans hg)
    have hb := hw.not_isBlock_of_isSlot hf hp
    rcases hp with hp | ⟨rfl, ht⟩
    · have hden : h.memory.denoted? (f.cell h.memory s.start part) = some (h.memory.resolve a) := by
        rw [Memory.denoted?, ha, Option.map_some]
      have hc := Memory.view_of_form? hf.form? hb
      have he := (Memory.mem_references_view hf.form? hb hc).mpr ⟨part, hp, hden⟩
      obtain ⟨t, k, hk, hkd, -⟩ := hw.direct_of_view hf hb hc he
      exact ⟨t, k, hk, hkd, fun _ ↦ .field (hlive hb) hc he⟩
    · obtain ⟨t, k, hk, hl, hkb, -⟩ := hw.block s f hf ht
      rw [hl, hw.toRef?_ofAddr (.of_mem hk.mem)] at ha
      cases ha
      exact ⟨t, k, hk, (Memory.resolve_of_hop?_eq_none hk.hop?).symm, fun hn ↦ absurd hkb hn⟩

/-- The objects that can be reached and are no blocks are the nodes. -/
theorem reachableObjects_eq :
    h.memory.reachableObjects h.table h.roots.toList = {d | h.Live d} := by
  ext d
  constructor
  · rintro ⟨hr, hb⟩
    obtain ⟨s, f, hf, rfl, hlive⟩ := live_or_isBlock_of_reachable hw hroots hr
    rw [Memory.tagBits_of_form? hf.form?] at hb
    exact hlive hb
  · intro hd
    obtain ⟨s, f, hf, rfl, hb⟩ := hd.direct hw hroots
    exact ⟨hd.reachable hw hroots, by rwa [Memory.tagBits_of_form? hf.form?]⟩

/-- An audit of a well-formed heap gives the number of nodes. -/
theorem tallies_live : h.Tallies {d | h.Live d} := by
  rw [← reachableObjects_eq hw hroots]
  apply (detects hw (.refl h.memory h.table os) fun a ha ↦ (hroots a ha).denotes.1).count
  rintro ⟨d, hd, -⟩
  exact hd

end WellFormed

/-! ### Collections -/

/-- The audit of a sound heap counts the live objects. -/
theorem Sound.tallies_live (hs : h.Sound l) : h.Tallies {d | h.Live d} :=
  Heap.tallies_live hs.wellFormed hs.roots

/-- A renaming does not change the number of nodes. -/
theorem Renames.ncard_live (hg : Renames φ h h') :
    {d | h'.Live d}.ncard = {d | h.Live d}.ncard := by
  have himage : {d | h'.Live d} = φ '' {d | h.Live d} := by
    ext e
    exact hg.live_iff
  rw [himage]
  apply Set.InjOn.ncard_image
  exact fun d hd e he ↦ hg.injective d e hd he

/-- A collection does not change what an audit tells. -/
theorem Collected.audit_eq (hs : h.Sound l) (hc : Collected h l h' l') : h'.audit = h.audit := by
  obtain ⟨φ, hg⟩ := hc.graph
  rw [hc.sound.tallies_live.2, hs.tallies_live.2, hg.renames.ncard_live]

/-- That goes for a collection that succeeds as well as for one that finds the heap exhausted. -/
theorem Sound.audit_eq_of_leaves {op : HeapM Unit} (hs : h.Sound l) (hroom : h.Headroom)
    (hop : Ends op h
      (fun _ h' ↦ (∃ l', Collected h l h' l') ∧ h'.epochs = h.epochs + 1 ∧ h'.Headroom)
      (fun e h' ↦ e.IsExhausted ∧ (h.Headroom → h.Spent l e h')))
    (hl : Leaves op h h') : h'.audit = h.audit := by
  rcases hl with ⟨_, he⟩ | ⟨e, he⟩
  · obtain ⟨⟨l', hc⟩, -⟩ := hop.of_eq_ok he
    exact hc.audit_eq hs
  · obtain ⟨-, hspent⟩ := hop.of_eq_error he
    obtain ⟨l', hc⟩ := (hspent hroom).collected
    exact hc.audit_eq hs

/-- Where nothing but the nodes and their blocks is left, there is one object for each node and one
for each block. -/
theorem Kept.length_eq_add (hs : h.Sound l) (hk : h.Kept ts) :
    ts.length = {d | h.Live d}.ncard + h.blockOwners.ncard := by
  have hfin := Live.finite hs
  have hcount : ∀ d, h.Live d → h.copyCount d =
      1 + if (h.memory.header d).tailBits = .outOfLine then 1 else 0 := by
    intro d hd
    obtain ⟨t, g, hg, -, rfl⟩ := (hk.live d).mp hd
    rw [copyCount, Memory.tailBits_of_form? hg.form?]
    by_cases ht : g.tail = .outOfLine
    · rw [if_pos ⟨ht, hk.tail t g hg ht⟩, if_pos ht]
    · rw [if_neg fun h ↦ ht h.1, if_neg ht]
  rw [hk.length_eq, ncard_blockOwners hs, finsum_mem_eq_finite_toFinset_sum _ hfin,
    finsum_mem_eq_finite_toFinset_sum _ hfin, Set.ncard_eq_toFinset_card _ hfin,
    Finset.card_eq_sum_ones, ← Finset.sum_add_distrib]
  exact Finset.sum_congr rfl fun d hd ↦ hcount d (hfin.mem_toFinset.mp hd)

/-- The latest event is the end of a scavenge that has copied so many objects. -/
def LastCopied (h : Heap) (objects : Nat) : Prop :=
  ∃ bytes occupancy, h.events.back? = some (.finished .scavenge objects bytes occupancy)

/-- A scavenge for room reports all that it has left. -/
theorem ends_scavengeForRoom_copied {bad : Fault → Heap → Prop} (hs : h.Sound { old := os }) :
    Ends scavengeForRoom h (fun _ h' ↦ ∃ ts, h'.Kept ts ∧ h'.LastCopied ts.length) bad := by
  rw [scavengeForRoom]
  apply (ends_scavenge hs).bind
  rintro tally h₁ ⟨cs, m, hp, -, rfl⟩
  rw [count, ends_change_bind]
  have htold : ∀ {h₂ : Heap} {tally : Tally},
      Ends (report .scavenge tally) h₂ (fun _ h' ↦ h'.LastCopied tally.objects) bad := fun {_ _} ↦
    ⟨_, _, Array.back?_push ..⟩
  apply (ends_report.and htold).mono _ fun _ _ hb ↦ hb.1
  rintro _ h₂ ⟨⟨hsame, -⟩, htold⟩
  refine ⟨_, (hp.of_sameStore hsame.of_count).kept hs, ?_⟩
  have hlength : ((h.scavengeOrigin os).arrived cs).length = cs.length := List.length_map _
  rw [hlength]
  exact htold

/-- After a major collection an audit tells what the scavenge has copied, without the blocks. -/
theorem ends_majorCollection_copied (hs : h.Sound l) :
    Ends majorCollection h (fun _ h' ↦ ∃ n objects, h'.audit = .ok n ∧ h'.LastCopied objects ∧
      objects = n + h'.blockOwners.ncard) (fun _ _ ↦ True) := by
  rw [majorCollection]
  apply ((ends_promoteNursery hs).mono (fun _ _ hp ↦ hp) fun _ _ _ ↦ trivial).bind
  rintro _ h₁ ⟨⟨l₁, hc₁⟩, -⟩
  have hscavenge : Ends scavengeForRoom h₁ _ (fun _ _ ↦ True ∧ True) :=
    (ends_scavengeForRoom hc₁).and (ends_scavengeForRoom_copied hc₁.sound_old)
  apply (hscavenge.mono (fun _ _ hp ↦ hp) fun _ _ _ ↦ trivial).bind
  rintro _ h₂ ⟨⟨⟨l₂, hc₂⟩, -⟩, ts, hk, hlast⟩
  apply ends_requireHeadroom.mono _ fun _ _ _ ↦ trivial
  rintro _ _ ⟨rfl, -⟩
  exact ⟨_, _, hc₂.sound.tallies_live.2, hlast, hk.length_eq_add hc₂.sound⟩

/-- The heap with tag 9 in the header of the object that a reference to `a` denotes. -/
def marred (h : Heap) (a : Nat) : Heap :=
  { h with memory := h.memory.writeHeader (h.memory.resolve a) (.pack 9 0 .inline) }

private theorem Sound.defaced_marred (hs : h.Sound l) (ha : h.Valid l d)
    (hc : h.table.contains 9 = false) :
    h.memory.Defaced h.table l.objects {h.memory.resolve d} (h.marred d).memory := by
  obtain ⟨-, -, s, f, hf, he, -⟩ := ha.denotes
  exact hs.wellFormed.defaced_writeHeader ⟨s, hf.mem, he⟩ .inline (by decide) (Nat.zero_le _) hc

end Heap

namespace Mutator

open Heap

/-- In well-formed memory an audit gives the number of objects that the roots reach, and it detects
every header that is overwritten with a tag without a type, if the roots reach it. In every session
that a program can reach, no collection changes what an audit tells, and after a major collection
this is what the scavenge has copied, without the blocks. -/
theorem audit_counts_reachable :
    (∀ (h : Heap) (padding : Bool) (os : List Span), h.memory.WellFormed h.table padding os →
      (∀ a ∈ h.roots.toList, h.memory.Valid h.table os a) →
      h.Tallies {d | h.Live d} ∧
      ∀ (bad : Set Nat) (m : Memory), h.memory.Defaced h.table os bad m →
        { h with memory := m }.Detects bad) ∧
    ∀ (settings : Settings) (table : TypeTable) (s : Session) (l : Census) (h : Heap),
      Reaches settings table s l → s.heap.Rerooted l h →
      h.Tallies {d | h.Live d} ∧
      (∀ h', Leaves minorCollection h h' → h'.audit = h.audit) ∧
      (∀ h', Leaves majorCollection h h' → h'.audit = h.audit) ∧
      ∀ h', majorCollection h = .ok () h' → ∃ n objects, h'.audit = .ok n ∧
        h'.LastCopied objects ∧ objects = n + h'.blockOwners.ncard := by
  constructor
  · intro h padding os hw hroots
    refine ⟨tallies_live hw hroots, fun bad m hd ↦ ?_⟩
    exact detects hw hd fun a ha ↦ (hroots a ha).denotes.1
  · intro settings table s l h hr hre
    have hs := hre.sound hr.sound.heap
    have hroom := hre.headroom hr.sound.heap hr.headroom
    exact ⟨hs.tallies_live, fun h' ↦ hs.audit_eq_of_leaves hroom (ends_collect hs),
      fun h' ↦ hs.audit_eq_of_leaves hroom (ends_majorCollection hs),
      fun h' he ↦ (ends_majorCollection_copied hs).of_eq_ok he⟩

/-- A run with two objects in the end. A major collection copies them with their blocks. If the
header of one of them is overwritten, an audit fails. -/
theorem audit_sample : ∃ s l os a m h' h'',
    Reaches { Sample.smallSettings with compactTails := false } Sample.nodeTable s l ∧
    s.heap.memory.WellFormed s.heap.table s.heap.settings.padding os ∧
    (∀ a ∈ s.heap.roots.toList, s.heap.memory.Valid s.heap.table os a) ∧
    s.heap.memory.Defaced s.heap.table os {s.heap.memory.resolve a} m ∧
    minorCollection s.heap = .ok () h' ∧ majorCollection s.heap = .ok () h'' ∧
    {d | s.heap.Live d}.ncard = 2 ∧
    m.Reachable s.heap.table s.heap.roots.toList (s.heap.memory.resolve a) ∧
    { s.heap with memory := m }.audit = .error (.fatal (.heapCorruption 9 2)) ∧
    h'.audit = .ok 2 ∧ h''.audit = .ok 2 ∧ h''.LastCopied 4 ∧ h''.blockOwners.ncard = 2 := by
  obtain ⟨s, l, hs, hr⟩ : ∃ s l,
      Sample.session { Sample.smallSettings with compactTails := false } = some s ∧
      Reaches { Sample.smallSettings with compactTails := false } Sample.nodeTable s l :=
    Sample.reaches_of_isSome (by decide +kernel)
  have hnow : (Sample.session { Sample.smallSettings with compactTails := false }).map (fun s ↦
      (s.heap.table, s.heap.audit, s.heap.roots.toList.head?.map (s.heap.marred · |>.audit))) =
      some (Sample.nodeTable, .ok 2, some (.error (.fatal (.heapCorruption 9 2)))) := by
    decide +kernel
  have hafter : (Sample.session { Sample.smallSettings with compactTails := false }).map (fun s ↦
      (after? minorCollection (fun _ ↦ ()) s.heap,
        after? majorCollection (·.events.back?) s.heap)) =
      some (some (), some (some (.finished .scavenge 4 120 none))) := by
    decide +kernel
  simp only [hs, Option.map_some, Option.some.injEq, Prod.mk.injEq] at hnow hafter
  obtain ⟨htable, haudit, hmarred⟩ := hnow
  obtain ⟨hminor, hmajor⟩ := hafter
  obtain ⟨h', he', -⟩ := exists_of_after? hminor
  obtain ⟨h'', he'', hlast⟩ := exists_of_after? hmajor
  obtain ⟨a, ha, hfatal⟩ := Option.map_eq_some_iff.mp hmarred
  have hsound := hr.sound.heap
  have hd := hsound.defaced_marred (hsound.roots a (List.mem_of_head? ha))
    (by rw [htable]; decide)
  obtain ⟨hformed, hreached⟩ := audit_counts_reachable
  obtain ⟨⟨-, hlive⟩, hdetects⟩ := hformed s.heap _ _ hsound.wellFormed hsound.roots
  obtain ⟨_, rfl, hreach⟩ :=
    (hdetects _ _ hd).fatal.mp ⟨9, hfatal.trans (by simp only [htable]; rfl)⟩
  obtain ⟨-, hsame, hsame', hcopied⟩ := hreached _ _ s l s.heap hr (.refl hsound)
  obtain ⟨n, objects, hn, ⟨bytes, occupancy, hback⟩, hsum⟩ := hcopied h'' he''
  have haudit'' := (hsame' h'' (.inl ⟨_, he''⟩)).trans haudit
  cases hn.symm.trans haudit''
  cases hback.symm.trans hlast
  refine ⟨s, l, _, a, _, h', h'', hr, hsound.wellFormed, hsound.roots, hd, he', he'', ?_, hreach,
    hfatal, (hsame h' (.inl ⟨_, he'⟩)).trans haudit, haudit'', ⟨_, _, hlast⟩, by omega⟩
  exact Except.ok.inj (hlive.symm.trans haudit)

end Mutator

end Tenure
