import Tenure.Proofs.WellFormed

/-!
# Writing to well-formed memory

The steps of a program that change the memory between collections: writing a part of an object, and
making one object stand for another. Main statements: `WellFormed.write_part` and
`WellFormed.redirect`, the memory stays well-formed, and where each reference leads afterwards.
-/

namespace Tenure.Memory

variable {m m' : Memory} {table : TypeTable} {padding : Bool} {os : List Span} {s t : Span}
  {f g : Form} {part part' : Part} {a d : Nat} {w : Word}

/-! ### The same headers -/

section SameHeaders

variable (hh : ∀ s ∈ os, m'.read s.start = m.read s.start)
include hh

/-- Objects do not depend on words other than headers. -/
theorem direct_congr : m'.Direct table os s f ↔ m.Direct table os s f := by
  constructor
  · rintro ⟨hs, hf⟩
    exact ⟨hs, by rwa [form?_congr (hh s hs)] at hf⟩
  · rintro ⟨hs, hf⟩
    exact ⟨hs, by rwa [form?_congr (hh s hs)]⟩

/-- With the same headers, references lead to the same objects. -/
theorem Leads.congr (hw : m.WellFormed table padding os) (ha : IsObject os a)
    (h : m.Leads a d) : m'.Leads a d := by
  refine h.induction (motive := fun x ↦ IsObject os x → m'.Leads x d) ?_ ?_ ha
  · rintro hn ⟨s, hs, rfl⟩
    exact .here (by rw [hop?_congr (hh s hs), hn])
  · rintro x b hx _ ih ⟨s, hs, rfl⟩
    obtain ⟨_, hb, _⟩ := hw.valid_of_hop? (.of_mem hs) hx
    exact .hop (by rw [hop?_congr (hh s hs), hx]) (ih hb)

/-- What a reference denotes does not depend on words other than headers. -/
theorem Denotes.congr (hw : m.WellFormed table padding os) (h : m.Denotes table os a d) :
    m'.Denotes table os a d := by
  obtain ⟨ha, hl, s, f, hd, hs, hb⟩ := h
  exact ⟨ha, hl.congr hh hw ha, s, f, (direct_congr hh).mpr hd, hs, hb⟩

private theorem Valid.congr (hw : m.WellFormed table padding os) (h : m.Valid table os a) :
    m'.Valid table os a := (h.denotes.congr hh hw).valid

end SameHeaders

/-! ### Writing a part -/

section Write

variable (hw : m.WellFormed table padding os) (hd : m.Direct table os s f) (hb : ¬ f.IsBlock)
  (hp : f.Has part) (hl : part ≠ .link)
include hw hd hp

/-- Writing a part leaves the headers as they are. -/
theorem read_start_write_part (ht : t ∈ os) :
    (m.write (f.cell m s.start part) w).read t.start = m.read t.start :=
  read_write_of_ne w (hw.cell_ne_start hd hp ht)

include hb hl in
/-- Writing a part other than a link leaves the parts where they are. -/
theorem cell_write_part (hg : m.Direct table os t g) :
    g.cell (m.write (f.cell m s.start part) w) t.start part' = g.cell m t.start part' := by
  refine Form.cell_congr fun ht ↦ read_write_of_ne w fun he ↦ hl ?_
  have hgb := hw.not_isBlock_of_outOfLine hg ht
  exact (hw.cell_inj hd hg hb hgb hp (show g.Has .link from ht) he).2

include hb in
/-- Of the parts of objects that a program can name, only the one written changes. -/
theorem read_cell_write_part (hg : m.Direct table os t g) (hgb : ¬ g.IsBlock)
    (hp' : g.Has part') (hne : ¬ (s = t ∧ part = part')) :
    (m.write (f.cell m s.start part) w).read (g.cell m t.start part') =
      m.read (g.cell m t.start part') :=
  read_write_of_ne w fun he ↦ hne (hw.cell_inj hd hg hb hgb hp hp' he)

include hb hl in
/-- Memory stays well-formed when a part is written, if a reference that is written is valid. -/
theorem WellFormed.write_part (hr : f.Refers part →
    w = Word.null ∨ ∃ a, w = Word.ofAddr a ∧ m.Valid table os a) :
    (m.write (f.cell m s.start part) w).WellFormed table padding os := by
  have hh : ∀ t ∈ os, (m.write (f.cell m s.start part) w).read t.start = m.read t.start :=
    fun t ht ↦ read_start_write_part hw hd hp ht
  have hc : ∀ t g, m.Direct table os t g → ∀ part',
      g.cell (m.write (f.cell m s.start part) w) t.start part' = g.cell m t.start part' :=
    fun t g hg part' ↦ cell_write_part hw hd hb hp hl hg
  have hlink : ∀ t g, m.Direct table os t g → g.tail = .outOfLine →
      (m.write (f.cell m s.start part) w).read (g.cell m t.start .link) =
        m.read (g.cell m t.start .link) := by
    intro t g hg ht
    have hgb := hw.not_isBlock_of_outOfLine hg ht
    exact read_cell_write_part hw hd hb hp hg hgb ht fun h ↦ hl h.2
  constructor
  case apart => exact hw.apart
  case nonempty => exact hw.nonempty
  case mapped =>
    intro t ht i hi
    rw [mapped_write]
    exact hw.mapped t ht i hi
  case header =>
    intro t ht
    rcases hw.header t ht with ⟨g, hg⟩ | ⟨a, ha, hv⟩
    · exact .inl ⟨g, by rwa [form?_congr (hh t ht)]⟩
    · exact .inr ⟨a, by rwa [hh t ht], hv.congr hh hw⟩
  case extent =>
    intro t g hg
    exact hw.extent t g ((direct_congr hh).mp hg)
  case blank =>
    intro t g hg i hi hi'
    have hg := (direct_congr hh).mp hg
    rw [read_write_of_ne w (hw.cell_ne_blank hd hp hg hi hi')]
    exact hw.blank t g hg i hi hi'
  case reference =>
    intro t g hg part' hr'
    have hg := (direct_congr hh).mp hg
    have hgb : ¬ g.IsBlock := fun h ↦ hg.not_refers_of_isBlock h hr'
    rw [hc t g hg]
    -- Just the part that was written holds another word, which is null or valid by `hr`.
    by_cases he : s = t ∧ part = part'
    · obtain ⟨rfl, rfl⟩ := he
      obtain rfl := hd.unique hg
      rw [read_write_self w (hw.mapped_cell hd hp)]
      rcases hr hr' with h | ⟨a, h, hv⟩
      · exact .inl h
      · exact .inr ⟨a, h, hv.congr hh hw⟩
    · rw [read_cell_write_part hw hd hb hp hg hgb hr'.has he]
      rcases hw.reference t g hg part' hr' with h | ⟨a, h, hv⟩
      · exact .inl h
      · exact .inr ⟨a, h, hv.congr hh hw⟩
  case block =>
    intro t g hg ht
    have hg := (direct_congr hh).mp hg
    obtain ⟨u, k, hk, he, hkb, hs⟩ := hw.block t g hg ht
    exact ⟨u, k, (direct_congr hh).mpr hk, by rw [hc t g hg, hlink t g hg ht, he], hkb, hs⟩
  case owner =>
    intro t g u k hg hk ht hu he
    have hg := (direct_congr hh).mp hg
    have hk := (direct_congr hh).mp hk
    rw [hc t g hg, hc u k hk, hlink t g hg ht, hlink u k hk hu] at he
    exact hw.owner t g u k hg hk ht hu he
  case inline =>
    intro t g hg
    exact hw.inline t g ((direct_congr hh).mp hg)

end Write

/-! ### Making an object stand for another -/

section Redirect

variable (hw : m.WellFormed table padding os) (hd : m.Direct table os s f) (hb : ¬ f.IsBlock)
  (hg : m.Direct table os t g) (hgb : ¬ g.IsBlock) (hne : s ≠ t)
include hw hd

/-- To redirect an object overwrites its header, and nothing else. -/
theorem read_redirect {p : Nat} : (m.redirect s.start t.start).read p =
    if p = s.start then (Header.forward (Word.ofAddr t.start)).word else m.read p := by
  rw [redirect, writeHeader, read_write]
  by_cases hp : p = s.start
  · rw [if_pos hp, if_pos ⟨hp.symm, hw.mapped_start hd.mem⟩]
  · rw [if_neg hp, if_neg fun h ↦ hp h.1.symm]

include hg in
/-- The object that was redirected leads to its target. -/
theorem hop?_redirect_self : (m.redirect s.start t.start).hop? s.start = some t.start := by
  refine hop?_of_read ?_ (hw.lt_limit (.of_mem hg.mem))
  rw [read_redirect hw hd, if_pos rfl]

/-- All other words are as they were. -/
theorem read_redirect_of_ne {x : Nat} (hx : x ≠ s.start) :
    (m.redirect s.start t.start).read x = m.read x := by
  rw [read_redirect hw hd, if_neg hx]

/-- All other indirections are as they were. -/
theorem hop?_redirect_of_ne {x : Nat} (hx : x ≠ s.start) :
    (m.redirect s.start t.start).hop? x = m.hop? x :=
  hop?_congr (read_redirect_of_ne hw hd hx)

include hg in
/-- All other objects are direct as before. -/
theorem direct_redirect {u : Span} {k : Form} :
    (m.redirect s.start t.start).Direct table os u k ↔ m.Direct table os u k ∧ u ≠ s := by
  constructor
  · rintro hk
    have hus : u.start ≠ s.start := by
      intro he
      have hn := hk.hop?
      rw [he, hop?_redirect_self hw hd hg] at hn
      cases hn
    refine ⟨⟨hk.1, ?_⟩, fun he ↦ hus (he ▸ rfl)⟩
    rw [← form?_congr (read_redirect_of_ne (t := t) hw hd hus)]
    exact hk.2
  · rintro ⟨hk, hne⟩
    have hus : u.start ≠ s.start := fun he ↦ hne (hw.eq_of_start hk.mem hd.mem he)
    exact ⟨hk.1, by rw [form?_congr (read_redirect_of_ne hw hd hus)]; exact hk.2⟩

include hg hne in
/-- What led to the object leads to the other one now. -/
theorem Leads.redirect (h : m.Leads a d) :
    (m.redirect s.start t.start).Leads a (if d = s.start then t.start else d) := by
  have hts : t.start ≠ s.start := fun he ↦ hne (hw.eq_of_start hd.mem hg.mem he.symm)
  have ht : (m.redirect s.start t.start).Leads t.start t.start :=
    .here (by rw [hop?_redirect_of_ne hw hd hts]; exact hg.hop?)
  refine h.induction (motive := fun x ↦
    (m.redirect s.start t.start).Leads x (if d = s.start then t.start else d))
    (fun hn ↦ ?_) fun x b hx _ ih ↦ ?_
  · by_cases he : d = s.start
    · rw [if_pos he, he]
      exact .hop (hop?_redirect_self hw hd hg) ht
    · rw [if_neg he]
      exact .here (by rw [hop?_redirect_of_ne hw hd he, hn])
  · have hxs : x ≠ s.start := by
      intro he
      rw [he, hd.hop?] at hx
      cases hx
    exact .hop (by rw [hop?_redirect_of_ne hw hd hxs, hx]) ih

include hg hgb hne in
/-- What denoted the object denotes its target now, and all else what it did. -/
theorem Denotes.redirect (h : m.Denotes table os a d) :
    (m.redirect s.start t.start).Denotes table os a (if d = s.start then t.start else d) := by
  obtain ⟨ha, hl, u, k, hk, hu, hkb⟩ := h
  refine ⟨ha, hl.redirect hw hd hg hne, ?_⟩
  by_cases he : d = s.start
  · exact ⟨t, g, (direct_redirect hw hd hg).mpr ⟨hg, hne.symm⟩, by rw [if_pos he], hgb⟩
  · refine ⟨u, k, (direct_redirect hw hd hg).mpr ⟨hk, ?_⟩, by rw [if_neg he, hu], hkb⟩
    rintro rfl
    exact he hu.symm

include hg hgb hne in
/-- What was valid stays valid. -/
theorem Valid.redirect (h : m.Valid table os a) :
    (m.redirect s.start t.start).Valid table os a :=
  (h.denotes.redirect hw hd hg hgb hne).valid

/-- The parts of direct objects hold what they held. -/
theorem read_cell_redirect {u : Span} {k : Form} (hk : m.Direct table os u k)
    (hp : k.Has part) : (m.redirect s.start t.start).read (k.cell m u.start part) =
      m.read (k.cell m u.start part) := by
  rw [read_redirect hw hd, if_neg (hw.cell_ne_start hk hp hd.mem)]

/-- Redirection leaves the parts where they are. -/
theorem cell_redirect {u : Span} {k : Form} (hk : m.Direct table os u k) :
    k.cell (m.redirect s.start t.start) u.start part = k.cell m u.start part := by
  exact Form.cell_congr fun ht ↦ read_cell_redirect hw hd hk (show k.Has .link from ht)

include hb hg hgb hne in
/-- Memory stays well-formed when an object is made to stand for another. -/
theorem WellFormed.redirect : (m.redirect s.start t.start).WellFormed table padding os := by
  have hv : ∀ a, m.Valid table os a → (m.redirect s.start t.start).Valid table os a :=
    fun a ha ↦ ha.redirect hw hd hg hgb hne
  have hdir : ∀ u k, (m.redirect s.start t.start).Direct table os u k → m.Direct table os u k :=
    fun u k hk ↦ ((direct_redirect hw hd hg).mp hk).1
  constructor
  case apart => exact hw.apart
  case nonempty => exact hw.nonempty
  case mapped =>
    intro u hu i hi
    rw [Memory.redirect, writeHeader, mapped_write]
    exact hw.mapped u hu i hi
  case header =>
    intro u hu
    by_cases hus : u.start = s.start
    · refine .inr ⟨t.start, by rw [read_redirect hw hd, if_pos hus], hv _ ?_⟩
      exact (hg.denotes hgb).valid
    · have hread : (m.redirect s.start t.start).read u.start = m.read u.start := by
        rw [read_redirect hw hd, if_neg hus]
      rcases hw.header u hu with ⟨k, hk⟩ | ⟨a, ha, hva⟩
      · exact .inl ⟨k, by rwa [form?_congr hread]⟩
      · exact .inr ⟨a, by rwa [hread], hv a hva⟩
  case extent =>
    intro u k hk
    exact hw.extent u k (hdir u k hk)
  case blank =>
    intro u k hk i hi hi'
    have hk := hdir u k hk
    have hne : u.start + i ≠ s.start := by
      intro he
      have := hw.eq_of_common hk.mem hd.mem hi' (hw.nonempty s hd.mem) he
      subst this
      have := k.used_pos
      omega
    rw [read_redirect hw hd, if_neg hne]
    exact hw.blank u k hk i hi hi'
  case reference =>
    intro u k hk part hr
    have hk := hdir u k hk
    rw [cell_redirect hw hd hk, read_cell_redirect hw hd hk hr.has]
    rcases hw.reference u k hk part hr with h | ⟨a, h, hva⟩
    · exact .inl h
    · exact .inr ⟨a, h, hv a hva⟩
  case block =>
    intro u k hk ht
    have hk := hdir u k hk
    obtain ⟨v, l, hl, he, hlb, hs⟩ := hw.block u k hk ht
    refine ⟨v, l, (direct_redirect hw hd hg).mpr ⟨hl, ?_⟩, ?_, hlb, hs⟩
    · -- The object that was redirected is no block, so every block is direct still.
      rintro rfl
      exact hb ((hd.unique hl) ▸ hlb)
    · rw [cell_redirect hw hd hk, read_cell_redirect hw hd hk (show k.Has .link from ht), he]
  case owner =>
    intro u k v l hk hl hu hv he
    have hk := hdir u k hk
    have hl := hdir v l hl
    rw [cell_redirect hw hd hk, cell_redirect hw hd hl,
      read_cell_redirect hw hd hk (show k.Has .link from hu),
      read_cell_redirect hw hd hl (show Form.Has _ .link from hv)] at he
    exact hw.owner u k v l hk hl hu hv he
  case inline =>
    intro u k hk
    exact hw.inline u k (hdir u k hk)

end Redirect

end Tenure.Memory
