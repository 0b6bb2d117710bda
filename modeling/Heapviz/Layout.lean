import Heapviz.DrawClip

/-!
# The layout of the screen

The whole of `solve_layout` (`tui/layout.cpp`): three header rows and a footer,
the lower panels side by side or stacked as far as there is room for them, and
the map with what is left. `ScreenLayout.solve_eq` connects it to the part of it
the session's geometry uses.

A layout divides the screen: every cell of it lies in exactly one of the seven
parts, whatever the size (`screen_divided`). The argument is by rows. A part
knows which rows it may take up (`ScreenPart.rows`), and only the two panels
can share one.
-/

namespace Heapviz

/-! ## Solving -/

def Rect.empty : Rect := ⟨0, 0, 0, 0⟩

/-- `AppLayout`, with all that `solve_layout` returns; the session's `AppLayout`
is the part of it the map is placed by. -/
structure ScreenLayout where
  title : Rect
  address : Rect
  sectionRow : Rect
  map : Rect
  inspector : Rect
  metrics : Rect
  footer : Rect
  legend : Bool
  panelsStacked : Bool
deriving Repr, DecidableEq

def ScreenLayout.init : ScreenLayout :=
  ⟨.empty, .empty, .empty, .empty, .empty, .empty, .empty, true, false⟩

/-- A header row, if one is left above `bottom`, and where the next one goes. -/
def headerRow (w bottom top : Int) : Rect × Int :=
  if top < bottom then (⟨0, top, w, 1⟩, top + 1) else (.empty, top)

/-- The lower panels between the header rows and the footer, the inspector first,
and where they begin. -/
def lowerPanels (w top bottom : Int) (stacked : Bool) : Rect × Rect × Int :=
  let panelH := 7
  let available := bottom - top
  if stacked = false ∧ available ≥ panelH + 4 then
    let inspectorW := w * 3 / 5
    (⟨0, bottom - panelH, inspectorW, panelH⟩,
      ⟨inspectorW, bottom - panelH, w - inspectorW, panelH⟩, bottom - panelH)
  else if stacked = true ∧ available ≥ panelH * 2 + 4 then
    (⟨0, bottom - panelH - panelH, w, panelH⟩, ⟨0, bottom - panelH, w, panelH⟩,
      bottom - panelH - panelH)
  else if available ≥ panelH + 4 then
    (⟨0, bottom - panelH, w, panelH⟩, .empty, bottom - panelH)
  else (.empty, .empty, bottom)

/-- `solve_layout`. -/
def ScreenLayout.solve (w h : Int) : ScreenLayout :=
  if w ≤ 0 ∨ h ≤ 0 then ScreenLayout.init
  else
    let (title, top) := headerRow w (h - 1) 0
    let (address, top) := headerRow w (h - 1) top
    let (sectionRow, top) := headerRow w (h - 1) top
    let stacked : Bool := w < 100
    let (inspector, metrics, bottom) := lowerPanels w top (h - 1) stacked
    { title := title
      address := address
      sectionRow := sectionRow
      map := ⟨0, top, w, max 0 (bottom - top)⟩
      inspector := inspector
      metrics := metrics
      footer := ⟨0, h - 1, w, 1⟩
      legend := h ≥ 30
      panelsStacked := stacked }

/-- What a screen is divided into. -/
inductive ScreenPart where
  | title
  | address
  | sectionRow
  | map
  | inspector
  | metrics
  | footer
deriving Repr, DecidableEq

def ScreenLayout.part (l : ScreenLayout) : ScreenPart → Rect
  | .title => l.title
  | .address => l.address
  | .sectionRow => l.sectionRow
  | .map => l.map
  | .inspector => l.inspector
  | .metrics => l.metrics
  | .footer => l.footer

/-! ### What each helper leaves -/

theorem Rect.not_empty_has (x y : Int) : ¬ Rect.empty.Has x y := by
  simp only [Rect.Has, Rect.empty]
  omega

theorem headerRow_snd (w bottom top : Int) :
    (headerRow w bottom top).2 = if top < bottom then top + 1 else top := by
  unfold headerRow
  split <;> rfl

theorem headerRow_has {w bottom top x y : Int} :
    (headerRow w bottom top).1.Has x y ↔ 0 ≤ x ∧ x < w ∧ y = top ∧ top < bottom := by
  unfold headerRow
  split
  · simp only [Rect.Has]
    omega
  · simp only [Rect.not_empty_has, false_iff]
    omega

/-- The lower panels share the rows from where they begin to the footer, and leave
four to the map. -/
theorem lowerPanels_has {w top bottom x y : Int} {stacked : Bool} (hw : 0 < w)
    (htop : top ≤ bottom) :
    let panels := lowerPanels w top bottom stacked
    top ≤ panels.2.2 ∧ panels.2.2 ≤ bottom ∧ (panels.2.2 < bottom → top + 4 ≤ panels.2.2) ∧
      ((panels.1.Has x y ∨ panels.2.1.Has x y) ↔
        0 ≤ x ∧ x < w ∧ panels.2.2 ≤ y ∧ y < bottom) ∧
      ¬ (panels.1.Has x y ∧ panels.2.1.Has x y) := by
  unfold lowerPanels
  dsimp only
  split_ifs with hwide htall hone
  · simp only [Rect.Has]
    omega
  · simp only [Rect.Has]
    omega
  · simp only [Rect.not_empty_has, or_false, and_false, not_false_eq_true, and_true]
    simp only [Rect.Has]
    omega
  · simp only [Rect.not_empty_has, or_false, and_false, not_false_eq_true, and_true, false_iff]
    omega

/-- The header rows end in row three, or at the footer. -/
theorem headerRows_end (w : Int) {bottom : Int} (hbottom : 0 ≤ bottom) :
    (headerRow w bottom (headerRow w bottom (headerRow w bottom 0).2).2).2 = min 3 bottom := by
  simp only [headerRow_snd]
  split_ifs <;> omega

/-- The session's layout is this one, as far as it goes. -/
theorem ScreenLayout.solve_eq (w h : Int) :
    (ScreenLayout.solve w h).map = (solveLayout w h).map ∧
      (ScreenLayout.solve w h).legend = (solveLayout w h).legend := by
  unfold ScreenLayout.solve solveLayout
  by_cases hempty : w ≤ 0 ∨ h ≤ 0
  · simp only [if_pos hempty]
    exact ⟨rfl, rfl⟩
  · have hend := headerRows_end w (show 0 ≤ h - 1 by omega)
    have hlower : (lowerPanels w (min 3 (h - 1)) (h - 1) (decide (w < 100))).2.2 =
        if 100 ≤ w ∧ h - 1 - min 3 (h - 1) ≥ 7 + 4 then h - 1 - 7
        else if w < 100 ∧ h - 1 - min 3 (h - 1) ≥ 7 * 2 + 4 then h - 1 - 7 - 7
        else if h - 1 - min 3 (h - 1) ≥ 7 + 4 then h - 1 - 7
        else h - 1 := by
      have hwide : (decide (w < 100) = false) = (100 ≤ w) := by simp
      have hstacked : (decide (w < 100) = true) = (w < 100) := by simp
      unfold lowerPanels
      simp only [hwide, hstacked]
      split_ifs <;> rfl
    simp only [if_neg hempty, hend, hlower]
    exact ⟨trivial, trivial⟩

/-- The panels' rectangles are made of `int`s. -/
theorem lowerPanels_fits {w top bottom : Int} (stacked : Bool) (hw : 0 < w ∧ w < 2 ^ 31)
    (htop : 0 ≤ top) (hbottom : top ≤ bottom ∧ bottom < 2 ^ 31) :
    (lowerPanels w top bottom stacked).1.Fits ∧ (lowerPanels w top bottom stacked).2.1.Fits := by
  have hempty : Rect.empty.Fits := ⟨by decide, by decide, by decide, by decide⟩
  unfold lowerPanels
  dsimp only
  split_ifs with hwide htall hone
  · refine ⟨⟨?_, ?_, ?_, ?_⟩, ⟨?_, ?_, ?_, ?_⟩⟩ <;> dsimp only <;> omega
  · refine ⟨⟨?_, ?_, ?_, ?_⟩, ⟨?_, ?_, ?_, ?_⟩⟩ <;> dsimp only <;> omega
  · refine ⟨⟨?_, ?_, ?_, ?_⟩, hempty⟩ <;> dsimp only <;> omega
  · exact ⟨hempty, hempty⟩

section Divided

variable {w h : Int}

/-- A part of the layout by the coordinates it holds. -/
theorem ScreenLayout.header_has (hw : 0 < w) (hh : 0 < h) (x y : Int) :
    ((ScreenLayout.solve w h).title.Has x y ↔ 0 ≤ x ∧ x < w ∧ y = 0 ∧ 1 < h) ∧
      ((ScreenLayout.solve w h).address.Has x y ↔ 0 ≤ x ∧ x < w ∧ y = 1 ∧ 2 < h) ∧
      ((ScreenLayout.solve w h).sectionRow.Has x y ↔ 0 ≤ x ∧ x < w ∧ y = 2 ∧ 3 < h) ∧
      ((ScreenLayout.solve w h).footer.Has x y ↔ 0 ≤ x ∧ x < w ∧ y = h - 1) := by
  have hopen : ¬ (w ≤ 0 ∨ h ≤ 0) := by omega
  unfold ScreenLayout.solve
  simp only [if_neg hopen, headerRow_has, headerRow_snd]
  refine ⟨?_, ?_, ?_, ?_⟩
  · omega
  · split_ifs <;> omega
  · split_ifs <;> omega
  · simp only [Rect.Has]
    omega

/-- The map and the panels, in terms of the rows the panels begin in. -/
theorem ScreenLayout.solve_body (hw : 0 < w) (hh : 0 < h) :
    ∃ panels, panels = lowerPanels w (min 3 (h - 1)) (h - 1) (decide (w < 100)) ∧
      (ScreenLayout.solve w h).map =
        ⟨0, min 3 (h - 1), w, max 0 (panels.2.2 - min 3 (h - 1))⟩ ∧
      (ScreenLayout.solve w h).inspector = panels.1 ∧
      (ScreenLayout.solve w h).metrics = panels.2.1 := by
  have hopen : ¬ (w ≤ 0 ∨ h ≤ 0) := by omega
  have hend := headerRows_end w (show 0 ≤ h - 1 by omega)
  unfold ScreenLayout.solve
  simp only [if_neg hopen, hend]
  exact ⟨_, rfl, rfl, rfl, rfl⟩

/-- The map and the panels share what is between the header rows and the footer. -/
theorem ScreenLayout.body_has (hw : 0 < w) (hh : 0 < h) :
    ∃ begins, min 3 (h - 1) ≤ begins ∧ begins ≤ h - 1 ∧
      (begins < h - 1 → (ScreenLayout.solve w h).map.h ≥ 4) ∧
      ∀ x y,
        ((ScreenLayout.solve w h).map.Has x y ↔
          0 ≤ x ∧ x < w ∧ min 3 (h - 1) ≤ y ∧ y < begins) ∧
        (((ScreenLayout.solve w h).inspector.Has x y ∨ (ScreenLayout.solve w h).metrics.Has x y) ↔
          0 ≤ x ∧ x < w ∧ begins ≤ y ∧ y < h - 1) ∧
        ¬ ((ScreenLayout.solve w h).inspector.Has x y ∧
          (ScreenLayout.solve w h).metrics.Has x y) := by
  obtain ⟨panels, hpanels, hmap, hinspector, hmetrics⟩ := ScreenLayout.solve_body hw hh
  have hlower := fun x y => @lowerPanels_has w (min 3 (h - 1)) (h - 1) x y (decide (w < 100)) hw
    (by omega)
  rw [← hpanels] at hlower
  obtain ⟨hlow, hhigh, hroom, -⟩ := hlower 0 0
  rw [hmap, hinspector, hmetrics]
  refine ⟨panels.2.2, hlow, hhigh, fun hbegins => ?_, fun x y => ⟨?_, (hlower x y).2.2.2⟩⟩
  · have hroom := hroom hbegins
    show max 0 (panels.2.2 - min 3 (h - 1)) ≥ 4
    omega
  · simp only [Rect.Has]
    omega

theorem ScreenLayout.panels_fit (hw : 0 < w ∧ w < 2 ^ 31) (hh : 0 < h ∧ h < 2 ^ 31) :
    (ScreenLayout.solve w h).inspector.Fits ∧ (ScreenLayout.solve w h).metrics.Fits := by
  obtain ⟨panels, hpanels, -, hinspector, hmetrics⟩ := ScreenLayout.solve_body hw.1 hh.1
  have hfits := lowerPanels_fits (decide (w < 100)) hw
    (show 0 ≤ min 3 (h - 1) by omega) ⟨min_le_right 3 (h - 1), by omega⟩
  rw [hinspector, hmetrics, hpanels]
  exact hfits

end Divided

/-- The rows a part may take up, the lower panels beginning in row `begins`. -/
def ScreenPart.rows (h begins : Int) : ScreenPart → Int × Int
  | .title => (0, min 1 (h - 1))
  | .address => (1, min 2 (h - 1))
  | .sectionRow => (2, min 3 (h - 1))
  | .map => (min 3 (h - 1), begins)
  | .inspector | .metrics => (begins, h - 1)
  | .footer => (h - 1, h)

/-- **A layout divides the screen.** Whatever the size: every cell of the screen
lies in one of the seven parts and in no second one, no part reaches beyond the
screen, and a lower panel is only there when four rows are left to the map. -/
theorem screen_divided (w h x y : Int) :
    ((∃ p, ((ScreenLayout.solve w h).part p).Has x y) ↔ 0 ≤ x ∧ x < w ∧ 0 ≤ y ∧ y < h) ∧
    (∀ p q, ((ScreenLayout.solve w h).part p).Has x y → ((ScreenLayout.solve w h).part q).Has x y →
      p = q) ∧
    (((ScreenLayout.solve w h).inspector.Has x y ∨ (ScreenLayout.solve w h).metrics.Has x y) →
      4 ≤ (ScreenLayout.solve w h).map.h) := by
  by_cases hopen : w ≤ 0 ∨ h ≤ 0
  · have hnone : ∀ p, ¬ ((ScreenLayout.solve w h).part p).Has x y := by
      intro p
      rw [ScreenLayout.solve, if_pos hopen]
      cases p <;> exact Rect.not_empty_has x y
    refine ⟨⟨fun ⟨p, hp⟩ => absurd hp (hnone p), fun hin => by omega⟩,
      fun p _ hp => absurd hp (hnone p), ?_⟩
    rintro (hin | hin)
    · exact absurd hin (hnone .inspector)
    · exact absurd hin (hnone .metrics)
  · have hw : 0 < w := by omega
    have hh : 0 < h := by omega
    obtain ⟨htitle, haddress, hsection, hfooter⟩ := ScreenLayout.header_has hw hh x y
    obtain ⟨begins, hlow, hhigh, hroom, hbody⟩ := ScreenLayout.body_has hw hh
    obtain ⟨hmap, hpanels, hapart⟩ := hbody x y
    have hrows : ∀ p, ((ScreenLayout.solve w h).part p).Has x y →
        0 ≤ x ∧ x < w ∧ (p.rows h begins).1 ≤ y ∧ y < (p.rows h begins).2 := by
      intro p hp
      cases p with
      | title => have := htitle.mp hp; simp only [ScreenPart.rows]; omega
      | address => have := haddress.mp hp; simp only [ScreenPart.rows]; omega
      | sectionRow => have := hsection.mp hp; simp only [ScreenPart.rows]; omega
      | map => exact hmap.mp hp
      | inspector => exact hpanels.mp (.inl hp)
      | metrics => exact hpanels.mp (.inr hp)
      | footer => have := hfooter.mp hp; simp only [ScreenPart.rows]; omega
    refine ⟨⟨?_, fun hin => ?_⟩, fun p q hp hq => ?_, fun hin => hroom ?_⟩
    · rintro ⟨p, hp⟩
      have hp := hrows p hp
      cases p <;> simp only [ScreenPart.rows] at hp <;> omega
    · -- the row decides, and in the rows of the panels which of the two it is
      by_cases hfoot : y = h - 1
      · exact ⟨.footer, hfooter.mpr ⟨hin.1, hin.2.1, hfoot⟩⟩
      by_cases hhead : y < min 3 (h - 1)
      · by_cases h0 : y = 0
        · exact ⟨.title, htitle.mpr (by omega)⟩
        by_cases h1 : y = 1
        · exact ⟨.address, haddress.mpr (by omega)⟩
        · exact ⟨.sectionRow, hsection.mpr (by omega)⟩
      by_cases hbody : y < begins
      · exact ⟨.map, hmap.mpr (by omega)⟩
      · rcases hpanels.mpr (by omega) with hi | hm
        · exact ⟨.inspector, hi⟩
        · exact ⟨.metrics, hm⟩
    · have hp' := hrows p hp
      have hq' := hrows q hq
      by_cases hlower : begins ≤ y ∧ y < h - 1
      · have hpanel : ∀ r, ((ScreenLayout.solve w h).part r).Has x y →
            r = .inspector ∨ r = .metrics := by
          intro r hr
          have hr := hrows r hr
          cases r <;> simp only [ScreenPart.rows] at hr <;> first | exact .inl rfl | exact .inr rfl | omega
        rcases hpanel p hp with rfl | rfl <;> rcases hpanel q hq with rfl | rfl
        · rfl
        · exact absurd ⟨hp, hq⟩ hapart
        · exact absurd ⟨hq, hp⟩ hapart
        · rfl
      · cases p <;> cases q <;> simp only [ScreenPart.rows] at hp' hq' <;> first | rfl | omega
    · have hin := hpanels.mp hin
      omega

end Heapviz
