import KernelMemory.Proofs.Extent.Search
import KernelMemory.Proofs.Space.Paged

/-!
# Allocating, reserving and releasing

Each of the three calls looks for an extent, then asks the map for one reclaim of whole
pages inside it. An allocation or a reservation is refused without a change, runs out of
slots, or gives its usage to a range that was free. A release of pages of one usage cannot
be refused: they lie in one extent, whoever else has a part of it.
-/

namespace KernelMemory

namespace Space

variable {s : Space}

theorem outcome_onMap {α : Type} (op : ExtentOperation α) (s : Space) :
    (onMap op).outcome s =
      match op.outcome s.map with
      | (.ok a, map) => (.ok a, { s with map := map })
      | (.error e, map) => (.error (.ofExtentError e), { s with map := map })
      | (.fault x, map) => (.fault x, { s with map := map }) := by
  rw [onMap, Operation.outcome_within, Operation.outcome_mapError]
  rcases op.outcome s.map with ⟨verdict, map⟩
  cases verdict <;> rfl

theorem outcome_note {ε : Type} (level : Level) (text : String) (s : Space) :
    (note level text : Operation Space ε Unit).outcome s = (.ok (), s) := by
  rw [note, Operation.outcome_get_bind, Operation.outcome_note]

/-! ## Requests -/

theorem pages_eq_ok {size pages : Nat} {usage : Usage} (h : Space.pages size usage = .ok pages) :
    size ≠ 0 ∧ usage ≠ .free ∧ Page.roundUp? size = some pages := by
  unfold Space.pages at h
  split at h
  · simp at h
  · next hnot =>
    rw [not_or] at hnot
    split at h
    · next hround =>
      obtain rfl := Except.ok.inj h
      exact ⟨hnot.1, fun hfree => hnot.2 (by rw [hfree]; rfl), hround⟩
    · simp at h

theorem pageStop_eq_ok {start size stop : Nat} (h : pageStop start size = .ok stop) :
    Page.roundUp? (start + size) = some stop := by
  unfold pageStop at h
  split at h
  · next hround =>
    obtain rfl := Except.ok.inj h
    obtain ⟨sum, hsum, hround⟩ := Option.bind_eq_some_iff.mp hround
    obtain ⟨rfl, -⟩ := Word.add?_eq_some_iff.mp hsum
    exact hround
  · simp at h

theorem pageStop_eq_error {start size : Nat} {e : RequestError}
    (h : pageStop start size = .error e) : e = .invalidArgument := by
  unfold pageStop at h
  split at h
  · cases h
  · exact (Except.error.inj h).symm

/-- A sum that leaves the address range cannot be rounded up, either. -/
theorem pageStop_of_roundUp? {start size stop : Nat}
    (h : Page.roundUp? (start + size) = some stop) : pageStop start size = .ok stop := by
  have hlt := (Word.roundUp?_eq_some_iff.mp h).2
  have hsum : Word.add? start size = some (start + size) :=
    Word.add?_eq_some_iff.mpr ⟨rfl, by omega⟩
  rw [pageStop, hsum, Option.bind_some, h]

theorem pageStop_of_overflow {start size : Nat}
    (h : Word.bound ≤ start + size + (Page.size - 1)) :
    pageStop start size = .error .invalidArgument := by
  have hnone : (Word.add? start size).bind Page.roundUp? = none := by
    refine Option.bind_eq_none_iff.mpr fun sum hsum => ?_
    obtain ⟨rfl, -⟩ := Word.add?_eq_some_iff.mp hsum
    exact Page.roundUp?_eq_none_iff.mpr h
  rw [pageStop, hnone]

/-- The pages that `size` bytes from `address` on lie in. -/
structure PagesAround (address size : Nat) (r : Range) : Prop where
  start_eq : r.start = Page.roundDown address
  stop_eq : Page.roundUp? (address + size) = some r.stop

namespace PagesAround

variable {address size : Nat} {r : Range}

theorem paged (h : PagesAround address size r) : r.Paged :=
  ⟨h.start_eq ▸ Page.dvd_roundDown address, (Page.roundUp?_spec h.stop_eq).2.2⟩

/-- There are pages around any bytes, unless the end of the last page leaves the address range. -/
theorem exists_of_lt {address size : Nat} (hpos : 0 < size)
    (h : address + size + (Page.size - 1) < Word.bound) : ∃ r, PagesAround address size r := by
  obtain ⟨stop, hround⟩ := Option.ne_none_iff_exists'.mp
    (mt Page.roundUp?_eq_none_iff.mp (Nat.not_le.mpr h))
  have hdown := Page.roundDown_le address
  have hle := (Page.roundUp?_spec hround).1
  exact ⟨⟨Page.roundDown address, stop, by omega, Page.roundUp?_lt_bound hround⟩, rfl, hround⟩

/-- Even without a byte the pages have the address in them, since there is one at least. -/
theorem contains_address (h : PagesAround address size r) : r.contains address = true := by
  have hle := Page.roundDown_le address
  have hlt := Page.lt_roundDown_add address
  have hr := r.start_lt_stop
  have hnext : r.start + Page.size ≤ r.stop := by
    rcases Nat.lt_or_ge r.stop (r.start + Page.size) with hshort | hlong
    · have := Page.eq_of_dvd h.paged.1 h.paged.2 (by omega) hshort
      omega
    · exact hlong
  rw [Range.contains_iff, h.start_eq]
  rw [h.start_eq] at hnext
  omega

theorem pageStop_eq (h : PagesAround address size r) : pageStop address size = .ok r.stop :=
  pageStop_of_roundUp? h.stop_eq

/-- The distance of two page boundaries needs no rounding, and rounding it does not overflow. -/
theorem roundUp?_length (h : PagesAround address size r) :
    Page.roundUp? r.length = some r.length := by
  have hpos := Page.size_pos
  have hbound := r.length_lt_bound
  exact Page.roundUp?_eq_some (Nat.le_refl _) (by omega) (Nat.dvd_sub h.paged.2 h.paged.1) hbound

theorem pages_eq (h : PagesAround address size r) {usage : Usage} (hused : usage ≠ .free) :
    Space.pages (r.stop - Page.roundDown address) usage = .ok r.length := by
  have hlt := r.start_lt_stop
  have hlength : r.stop - r.start ≠ 0 := by omega
  rw [Space.pages, ← h.start_eq, if_neg (not_or.mpr ⟨hlength, by simpa [Usage.isFree] using hused⟩)]
  simp only [show r.stop - r.start = r.length from rfl, h.roundUp?_length]

theorem ofLength_eq (h : PagesAround address size r) :
    Range.ofLength (Page.roundDown address) r.length = .ok r := by
  have hlt := r.start_lt_stop
  have hstop : r.start + (r.stop - r.start) = r.stop := by omega
  have hbound := r.stop_lt_bound
  obtain ⟨r', hr', hstart, hstop'⟩ := Range.ofLength_eq_ok
    (show 0 < r.stop - r.start by omega) (show r.start + (r.stop - r.start) < _ by omega)
  rw [← h.start_eq, Range.length, hr', Range.ext hstart (hstop'.trans hstop)]

theorem releasedRange_eq (h : PagesAround address size r) (e : Extent) :
    releasedRange e address (some size) = .ok r := by
  rw [releasedRange, h.pageStop_eq]
  show (Range.new (Page.roundDown address) r.stop).mapError _ = _
  rw [← h.start_eq, Range.new, dif_pos ⟨r.start_lt_stop, r.stop_lt_bound⟩]
  rfl

end PagesAround

/-! ## Taking a free range -/

theorem outcome_take {D : Nat → Prop} (hm : s.map.Managed D) {p : Handle × Extent}
    (hp : p ∈ s.map.toList) (hfree : p.2.usage = .free) {r : Range}
    (inside : p.2.range.encloses r = true) (hr : D r.start ∧ D r.stop) (usage : Usage) :
    (∃ slots s', (onMap (ExtentMap.reclaim p.1 r usage (some .free))).outcome s =
        (.fault (.slotsExhausted slots), s')) ∨
      ∃ id s', (onMap (ExtentMap.reclaim p.1 r usage (some .free))).outcome s = (.ok id, s') ∧
        s.map.Converts D [r] usage s'.map := by
  rw [outcome_onMap, ← hfree]
  rcases hm.outcome_reclaim hp inside hr usage (.inr hfree) with
    ⟨slots, m', hout⟩ | ⟨id, m', hout, hm'⟩
  · rw [hout]
    exact .inl ⟨slots, _, rfl⟩
  · rw [hout]
    exact .inr ⟨id, _, rfl, hm'⟩

structure Fits (s : Space) (target : Handle) (start size : Nat) (e : Extent) : Prop where
  mem : (target, e) ∈ s.map.toList
  free : e.usage = .free
  start_le : e.start ≤ start
  le_stop : start + size ≤ e.stop

theorem freeFrom_eq_ok (hm : s.map.Sound) {start size : Nat} {p : Handle × Extent}
    (h : s.freeFrom start size = .ok p) : s.Fits p.1 start size p.2 := by
  obtain ⟨hp, hmeets⟩ := ((hm.answersAt_searchAt rfl).ok_iff p).mp h
  exact ⟨hp, hmeets.usage rfl .free rfl, (Extent.contains_iff.mp hmeets.contains).1,
    (hmeets.holds size rfl).2⟩

/-- An allocation goes to a page where a free extent holds all of it. -/
theorem placement_eq_ok (hm : s.map.Paged) {hint : Option Nat} {size : Nat}
    {target : Handle} {start : Nat} (h : s.placement hint size = .ok (target, start)) :
    Page.size ∣ start ∧ ∃ e, s.Fits target start size e := by
  simp only [placement] at h
  split at h
  · next hhint =>
    obtain rfl := Except.ok.inj h
    obtain ⟨address, rfl, hfree⟩ := Option.bind_eq_some_iff.mp hhint
    split at hfree
    · next hfound =>
      obtain ⟨rfl, rfl⟩ := Prod.mk.inj (Option.some.inj hfree)
      exact ⟨Page.dvd_roundDown address, _, freeFrom_eq_ok hm.sound hfound⟩
    · simp at hfree
  · obtain ⟨⟨id, e⟩, hsearch, hanswer⟩ := bind_eq_ok_iff.mp h
    obtain ⟨rfl, rfl⟩ := Prod.mk.inj (Except.ok.inj hanswer)
    have hfits : s.Fits id e.start size e := by
      obtain ⟨hp, hfits, -⟩ := (hm.sound.answersSize_search rfl).best _ hsearch
      have hroom : size ≤ e.stop - e.start := hfits.room
      have hlt := e.start_lt_stop
      exact ⟨hp, hfits.usage rfl, Nat.le_refl _, by omega⟩
    exact ⟨(hm.aligned _ hfits.mem).1, e, hfits⟩

/-! ## The calls -/

/-- The ranges were free, and have been taken for a client. -/
structure Takes (s : Space) (ranges : List Range) (usage : Usage) (s' : Space) : Prop where
  used : usage ≠ .free
  was_free : ∀ r ∈ ranges, ∀ address, r.contains address = true →
    s.map.usageAt? address = some .free
  retypes : s.map.Retypes ranges usage s'.map

/-- All addresses of the range have the usage. -/
def Uniform (s : Space) (usage : Usage) (r : Range) : Prop :=
  ∀ a, r.contains a = true → s.map.usageAt? a = some usage

/-- The addresses of the range have got the usage, and no other has changed its own. -/
def Assigned (s : Space) (r : Range) (usage : Usage) (s' : Space) : Prop :=
  ∀ a, s'.map.usageAt? a = if r.contains a then some usage else s.map.usageAt? a

theorem assigned_of_converts {D : Nat → Prop} {r : Range} {usage : Usage} {s' : Space}
    (h : s.map.Converts D [r] usage s'.map) : s.Assigned r usage s' := by
  intro a
  rw [h.usageAt?_eq, List.any_cons, List.any_nil, Bool.or_false]

theorem Fits.usageAt?_eq {target : Handle} {start size : Nat} {e : Extent}
    (hf : s.Fits target start size e) (h : s.map.Sound) {address : Nat}
    (hin : e.range.contains address = true) : s.map.usageAt? address = some .free := by
  rw [h.usageAt?_of_mem hf.mem hin, hf.free]

theorem Fits.takes {s' : Space} {target : Handle} {start size : Nat} {e : Extent} {r : Range}
    (hf : s.Fits target start size e) (h : s.map.Sound) (hr : e.range.encloses r = true)
    {usage : Usage} (hused : usage ≠ .free) (hs' : s.map.Retypes [r] usage s'.map) :
    s.Takes [r] usage s' := by
  refine ⟨hused, ?_, hs'⟩
  intro r' hr' address hin
  obtain rfl := List.mem_singleton.mp hr'
  exact hf.usageAt?_eq h (Range.contains_of_encloses hr hin)

/-- A free extent that holds a stretch can be asked for it. -/
theorem Fits.outcome_take {D : Nat → Prop} {target : Handle} {start size : Nat} {e : Extent}
    (hf : s.Fits target start size e) (hm : s.map.Managed D) (hpos : 0 < size)
    (hD : D start ∧ D (start + size)) (usage : Usage) :
    ∃ r, Range.ofLength start size = .ok r ∧ r.start = start ∧ r.stop = start + size ∧
      e.range.encloses r = true ∧
      ((∃ slots s', (onMap (ExtentMap.reclaim target r usage (some .free))).outcome s =
          (.fault (.slotsExhausted slots), s')) ∨
        ∃ id s', (onMap (ExtentMap.reclaim target r usage (some .free))).outcome s =
          (.ok id, s') ∧ s.map.Converts D [r] usage s'.map) := by
  have hstop : e.stop < Word.bound := e.range.stop_lt_bound
  have hle := hf.le_stop
  obtain ⟨r, hr, hrstart, hrstop⟩ := Range.ofLength_eq_ok hpos (by omega : start + size < _)
  have inside : e.range.encloses r = true :=
    Range.encloses_iff.mpr ⟨hrstart ▸ hf.start_le, hrstop ▸ hle⟩
  exact ⟨r, hr, hrstart, hrstop, inside, Space.outcome_take hm hf.mem hf.free inside
    ⟨hrstart ▸ hD.1, hrstop ▸ hD.2⟩ usage⟩

theorem outcome_refusing_error {α : Type} (e : ExtentError) (s : Space) :
    (refusing (.error e) : SpaceOperation α).outcome s = (.error (.ofExtentError e), s) := rfl

theorem outcome_refusing_ok {α : Type} (a : α) (s : Space) :
    (refusing (.ok a) : SpaceOperation α).outcome s = (.ok a, s) := rfl

/-- Where a free extent holds an allocation it is made, unless the slots run out. -/
theorem outcome_allocate {D : Nat → Prop} (hm : s.map.Managed D) {hint : Option Nat}
    {size S : Nat} {usage : Usage} (hpages : Space.pages size usage = .ok S) {target : Handle}
    {start : Nat} (hplace : s.placement hint S = .ok (target, start)) {e : Extent}
    (hfits : s.Fits target start S e) (hD : D start ∧ D (start + S)) :
    (∃ slots s', (allocate hint size usage).outcome s = (.fault (.slotsExhausted slots), s')) ∨
      ∃ s' r, (allocate hint size usage).outcome s = (.ok start, s') ∧ r.start = start ∧
        r.stop = start + S ∧ e.range.encloses r = true ∧ s.map.Converts D [r] usage s'.map := by
  obtain ⟨hsize, -, hround⟩ := pages_eq_ok hpages
  have hle := (Page.roundUp?_spec hround).1
  obtain ⟨r, hr, hrstart, hrstop, inside, htake⟩ := hfits.outcome_take hm (by omega) hD usage
  rw [allocate, hpages, Operation.outcome_bind_ok (Operation.outcome_ofExcept_ok S s),
    Operation.outcome_get_bind, hplace,
    Operation.outcome_bind_ok (outcome_refusing_ok (target, start) s)]
  simp only [hr]
  rw [Operation.outcome_bind_ok (outcome_refusing_ok r s)]
  rcases htake with ⟨slots, s', hout⟩ | ⟨id, s', hout, hs'⟩
  · exact .inl ⟨slots, s', Operation.outcome_bind_fault hout _⟩
  · refine .inr ⟨s', r, ?_, hrstart, hrstop, inside, hs'⟩
    rw [Operation.outcome_bind_ok hout, Operation.outcome_bind_ok (outcome_note _ _ _),
      Operation.outcome_pure]

theorem outcome_allocate_of_pages_error {size : Nat} {usage : Usage} {error : RequestError}
    (hpages : Space.pages size usage = .error error) (hint : Option Nat) :
    (allocate hint size usage).outcome s = (.error error, s) := by
  rw [allocate, hpages]
  rfl

theorem outcome_allocate_of_placement_error {hint : Option Nat} {size S : Nat} {usage : Usage}
    (hpages : Space.pages size usage = .ok S) {error : ExtentError}
    (hplace : s.placement hint S = .error error) :
    (allocate hint size usage).outcome s = (.error (.ofExtentError error), s) := by
  rw [allocate, hpages, Operation.outcome_bind_ok (Operation.outcome_ofExcept_ok S s),
    Operation.outcome_get_bind, hplace]
  exact Operation.outcome_bind_error (outcome_refusing_error error s) _

/-- An allocation takes whole pages that were free, and answers where they start. -/
theorem allocate_cases (hm : s.map.Paged) (hint : Option Nat) (size : Nat) (usage : Usage) :
    (∃ error, (allocate hint size usage).outcome s = (.error error, s)) ∨
      (∃ slots s', (allocate hint size usage).outcome s =
        (.fault (.slotsExhausted slots), s')) ∨
      ∃ start s' r, (allocate hint size usage).outcome s = (.ok start, s') ∧
        Page.size ∣ start ∧ PagesAround start size r ∧ s.Takes [r] usage s' := by
  cases hpages : Space.pages size usage with
  | error e => exact .inl ⟨e, outcome_allocate_of_pages_error hpages hint⟩
  | ok S =>
      obtain ⟨hsize, hused, hround⟩ := pages_eq_ok hpages
      obtain ⟨hle, hlt, hdvd⟩ := Page.roundUp?_spec hround
      cases hplace : s.placement hint S with
      | error e => exact .inl ⟨_, outcome_allocate_of_placement_error hpages hplace⟩
      | ok placed =>
          obtain ⟨target, start⟩ := placed
          obtain ⟨hstart, e, hfits⟩ := placement_eq_ok hm hplace
          have hstop := Nat.dvd_add hstart hdvd
          rcases outcome_allocate hm hpages hplace hfits ⟨hstart, hstop⟩ with
            hslots | ⟨s', r, hout, hrstart, hrstop, inside, hs'⟩
          · exact .inr (.inl hslots)
          · refine .inr (.inr ⟨start, s', r, hout, hstart, ⟨?_, ?_⟩,
              hfits.takes hm.sound inside hused hs'⟩)
            · rw [hrstart, Page.roundDown_of_dvd hstart]
            · exact Page.roundUp?_eq_some (by omega) (by omega) (hrstop ▸ hstop) r.stop_lt_bound

/-! ## Reservations -/

/-- A reservation of pages asks for one reclaim, in the extent that has all of them free. -/
theorem outcome_reserve_of_pages {start size : Nat} {r : Range} (hr : PagesAround start size r)
    {usage : Usage} (hused : usage ≠ .free) :
    (reserve start size usage).outcome s =
      match s.freeFrom r.start r.length with
      | .error e => (.error (.ofExtentError e), s)
      | .ok found =>
        (onMap (ExtentMap.reclaim found.1 r usage (some .free)) >>= fun _ =>
          pure ()).outcome s := by
  rw [reserve, hr.pageStop_eq, Operation.outcome_bind_ok (Operation.outcome_ofExcept_ok _ s),
    hr.pages_eq hused, Operation.outcome_bind_ok (Operation.outcome_ofExcept_ok _ s),
    Operation.outcome_get_bind, hr.start_eq]
  cases hfree : s.freeFrom (Page.roundDown start) r.length with
  | error e => exact Operation.outcome_bind_error (outcome_refusing_error e s) _
  | ok found =>
      dsimp only
      rw [Operation.outcome_bind_ok (outcome_refusing_ok found s)]
      simp only [hr.ofLength_eq]
      rw [Operation.outcome_bind_ok (outcome_refusing_ok r s), Operation.outcome_bind,
        Operation.outcome_bind]
      rcases (onMap (ExtentMap.reclaim found.1 r usage (some .free))).outcome s with ⟨verdict, s'⟩
      cases verdict with
      | ok id => exact outcome_note _ _ _
      | error e => rfl
      | fault f => rfl

theorem outcome_reserve_of_overflow {start size : Nat}
    (h : Word.bound ≤ start + size + (Page.size - 1)) (usage : Usage) :
    (reserve start size usage).outcome s = (.error .invalidArgument, s) := by
  rw [reserve, pageStop_of_overflow h]
  rfl

theorem outcome_reserve_of_free (start size : Nat) :
    (reserve start size .free).outcome s = (.error .invalidArgument, s) := by
  rw [reserve]
  cases hstop : pageStop start size with
  | error e =>
      obtain rfl := pageStop_eq_error hstop
      rfl
  | ok last =>
      rw [Operation.outcome_bind_ok (Operation.outcome_ofExcept_ok last s), Space.pages,
        if_pos (.inr rfl)]
      rfl

/-- No page is no request. -/
theorem outcome_reserve_of_le {start size last : Nat} (hstop : pageStop start size = .ok last)
    (hle : last ≤ Page.roundDown start) (usage : Usage) :
    (reserve start size usage).outcome s = (.error .invalidArgument, s) := by
  rw [reserve, hstop, Operation.outcome_bind_ok (Operation.outcome_ofExcept_ok last s),
    Nat.sub_eq_zero_of_le hle]
  rfl

/-- Where a free extent holds the pages they are taken, unless the slots run out. -/
theorem outcome_reserve {D : Nat → Prop} (hm : s.map.Managed D) {start size : Nat} {r : Range}
    (hr : PagesAround start size r) {usage : Usage} (hused : usage ≠ .free)
    {found : Handle × Extent} (hfree : s.freeFrom r.start r.length = .ok found)
    (hD : D r.start ∧ D r.stop) :
    (∃ slots s', (reserve start size usage).outcome s = (.fault (.slotsExhausted slots), s')) ∨
      ∃ s', (reserve start size usage).outcome s = (.ok (), s') ∧
        found.2.range.encloses r = true ∧ s.map.Converts D [r] usage s'.map := by
  have hf := freeFrom_eq_ok hm.sound hfree
  have hlt := r.start_lt_stop
  have hstop : r.start + r.length = r.stop := Nat.add_sub_cancel' (Nat.le_of_lt hlt)
  have inside : found.2.range.encloses r = true :=
    Range.encloses_iff.mpr ⟨hf.start_le, hstop ▸ hf.le_stop⟩
  simp only [outcome_reserve_of_pages hr hused, hfree]
  rw [Operation.outcome_bind]
  rcases outcome_take hm hf.mem hf.free inside hD usage with
    ⟨slots, s', hout⟩ | ⟨id, s', hout, hs'⟩
  · rw [hout]
    exact .inl ⟨slots, s', rfl⟩
  · rw [hout]
    exact .inr ⟨s', rfl, inside, hs'⟩

/-- A reservation takes the pages around its addresses, which were free. -/
theorem reserve_cases (hm : s.map.Paged) (start size : Nat) (usage : Usage) :
    (∃ error, (reserve start size usage).outcome s = (.error error, s)) ∨
      (∃ slots s', (reserve start size usage).outcome s =
        (.fault (.slotsExhausted slots), s')) ∨
      ∃ s' r, (reserve start size usage).outcome s = (.ok (), s') ∧
        PagesAround start size r ∧ s.Takes [r] usage s' := by
  cases hstop : pageStop start size with
  | error e => exact .inl ⟨e, by rw [reserve, hstop]; rfl⟩
  | ok last =>
      have hround := pageStop_eq_ok hstop
      rcases Nat.lt_or_ge (Page.roundDown start) last with hlt | hge
      · obtain ⟨r, hr⟩ : ∃ r, PagesAround start size r :=
          ⟨⟨Page.roundDown start, last, hlt, Page.roundUp?_lt_bound hround⟩, rfl, hround⟩
        by_cases hused : usage = .free
        · exact .inl ⟨_, hused ▸ outcome_reserve_of_free start size⟩
        · cases hfree : s.freeFrom r.start r.length with
          | error e =>
              refine .inl ⟨.ofExtentError e, ?_⟩
              simp only [outcome_reserve_of_pages hr hused, hfree]
          | ok found =>
              rcases outcome_reserve hm hr hused hfree hr.paged with
                hslots | ⟨s', hout, inside, hs'⟩
              · exact .inr (.inl hslots)
              · have hf := freeFrom_eq_ok hm.sound hfree
                exact .inr (.inr ⟨s', _, hout, hr, hf.takes hm.sound inside hused hs'⟩)
      · exact .inl ⟨_, outcome_reserve_of_le hstop hge usage⟩

/-! ## Releases -/

theorem outcome_free_of_untracked {address : Nat} (h : s.map.find? address = none)
    (size : Option Nat) : (free address size).outcome s = (.error .notFound, s) := by
  rw [free, Operation.outcome_get_bind]
  simp only [h, Operation.outcome_refuse]

theorem outcome_free_of_unallocated {address : Nat} {p : Handle × Extent}
    (hfind : s.map.find? address = some p) (h : isUnallocated p.2 = true) (size : Option Nat) :
    (free address size).outcome s = (.error (.notAllocated address), s) := by
  rw [free, Operation.outcome_get_bind]
  simp only [hfind, h, if_true]
  rw [Operation.outcome_bind_ok (outcome_note _ _ _), Operation.outcome_refuse]

/-- Whatever is in use was free before. -/
theorem isUnallocated_eq_false {D : Nat → Prop} (hm : s.map.Managed D) {p : Handle × Extent}
    (hmem : p ∈ s.map.toList) (hused : p.2.usage ≠ .free) : isUnallocated p.2 = false := by
  rw [isUnallocated, hm.restores p hmem hused]
  simp [Usage.isFree, hused]

/-- A release of what is in use asks for one reclaim, to free. -/
theorem outcome_free_of_used {D : Nat → Prop} (hm : s.map.Managed D) {address : Nat}
    {p : Handle × Extent} (hfind : s.map.find? address = some p) (hused : p.2.usage ≠ .free)
    (size : Option Nat) :
    (free address size).outcome s =
      match releasedRange p.2 address size with
      | .error e => (.error e, s)
      | .ok r =>
        (onMap (ExtentMap.reclaim p.1 r .free (some p.2.usage)) >>= fun _ =>
          pure r.length).outcome s := by
  obtain ⟨hmem, -⟩ := ExtentMap.contains_of_find? hfind
  rw [free, Operation.outcome_get_bind]
  simp only [hfind, isUnallocated_eq_false hm hmem hused, Bool.false_eq_true, if_false]
  cases hrange : releasedRange p.2 address size with
  | error e => exact Operation.outcome_bind_error (Operation.outcome_ofExcept_error e s) _
  | ok r =>
      dsimp only
      rw [Operation.outcome_bind_ok (Operation.outcome_ofExcept_ok r s),
        hm.restores p hmem hused, Operation.outcome_bind, Operation.outcome_bind]
      rcases (onMap (ExtentMap.reclaim p.1 r .free (some p.2.usage))).outcome s with ⟨verdict, s'⟩
      cases verdict with
      | ok id => exact Operation.outcome_bind_ok (outcome_note _ _ _) _
      | error e => rfl
      | fault f => rfl

/-- A part of an extent in use is released, and answered by its length. -/
theorem outcome_free_of_encloses {D : Nat → Prop} (hm : s.map.Managed D) {address : Nat}
    {p : Handle × Extent} (hfind : s.map.find? address = some p) (hused : p.2.usage ≠ .free)
    {size : Option Nat} {r : Range} (hr : releasedRange p.2 address size = .ok r)
    (inside : p.2.range.encloses r = true) (hD : D r.start ∧ D r.stop) :
    (∃ slots s', (free address size).outcome s = (.fault (.slotsExhausted slots), s')) ∨
      ∃ s', (free address size).outcome s = (.ok r.length, s') ∧
        s.map.Converts D [r] .free s'.map := by
  obtain ⟨hmem, -⟩ := ExtentMap.contains_of_find? hfind
  simp only [outcome_free_of_used hm hfind hused, hr]
  rw [Operation.outcome_bind, outcome_onMap]
  rcases hm.outcome_reclaim hmem inside hD .free (.inl rfl) with
    ⟨slots, m', hout⟩ | ⟨id, m', hout, hm'⟩
  · rw [hout]
    exact .inl ⟨slots, _, rfl⟩
  · rw [hout]
    exact .inr ⟨_, rfl, hm'⟩

/-- What leaves the extent is not released. -/
theorem outcome_free_of_outside {D : Nat → Prop} (hm : s.map.Managed D) {address : Nat}
    {p : Handle × Extent} (hfind : s.map.find? address = some p) (hused : p.2.usage ≠ .free)
    {size : Option Nat} {r : Range} (hr : releasedRange p.2 address size = .ok r)
    (outside : p.2.range.encloses r = false) :
    (free address size).outcome s = (.error (.invalidRange r.start r.stop), s) := by
  obtain ⟨hmem, -⟩ := ExtentMap.contains_of_find? hfind
  have hget : s.map.get? p.1 = some p.2 := hm.sound.index.get?_eq_some_iff.mpr hmem
  simp only [outcome_free_of_used hm hfind hused, hr]
  rw [Operation.outcome_bind, outcome_onMap,
    ExtentMap.outcome_reclaim_of_outside _ hget outside]
  rfl

/-- Pages of one usage are released whole, and answered by their length. -/
theorem outcome_free (hm : s.map.Paged) {address size : Nat} {r : Range}
    (hr : PagesAround address size r) {usage : Usage} (hused : usage ≠ .free)
    (hall : ∀ a, r.contains a = true → s.map.usageAt? a = some usage) :
    (∃ slots s', (free address (some size)).outcome s =
        (.fault (.slotsExhausted slots), s')) ∨
      ∃ s', (free address (some size)).outcome s = (.ok r.length, s') ∧
        s.map.Retypes [r] .free s'.map := by
  obtain ⟨p, hmem, -, rfl, inside⟩ := hm.partition.exists_encloses hm.sound hall
  have hfind : s.map.find? address = some p := hm.sound.find?_eq_some_iff.mpr
    ⟨hmem, Range.contains_of_encloses inside hr.contains_address⟩
  exact outcome_free_of_encloses hm hfind hused (hr.releasedRange_eq p.2) inside hr.paged

end Space

end KernelMemory
