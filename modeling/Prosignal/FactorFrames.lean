import Prosignal.V3Factors

/-!
# How deep a frame the factors need

Every factor looks at a fixed number of sessions, so a frame of that many rows
gives it the value of any longer one. The frame that is read is deep enough
for all of them but one, and which of the two callers computed the benchmark
does not matter.
-/

namespace Prosignal.V3Factors

open FloatArithmetic FloatVal Lookback ThemeScores BlendWeights

/-- The newest `n` sessions of a frame. -/
def Quotes.last {rows : ℕ} (n : ℕ) (q : Quotes rows) : Quotes (min rows n) where
  column feed := cut n nan (q.column feed)
  begins feed k hk := by
    rw [cut]
    split
    · next hkn => exact q.begins feed k ((min_le_iff.mp hk).resolve_right hkn.not_ge)
    · rfl

/-- The newest `n` sessions of a panel. -/
def Panel.last {ι : Type} (n : ℕ) (panel : Panel ι) : Panel ι where
  rows := min panel.rows n
  index := panel.index
  nodup := panel.nodup
  quotes i := (panel.quotes i).last n

/-- The sessions a factor looks at, the decision row included. -/
def depth : Factor → ℕ
  | .intradayMom126 => 147
  | .mom12_6 => 253
  | .mom2_0 => 43
  | .mom3_1 => 64
  | .momAccel => 127
  | .momConsist126 => 148
  | .prox52w => 273
  | .prox52wNow => 252
  | .voladjMom12_1 => 253
  | .voladjMom6_1 => 127
  | .marginStability => 504
  | .delivChg5 => 60
  | .delivPct60 => 60
  | .delivZ21 => 252
  | .downsideVol60 => 61
  | .retKurt126 => 127
  | .ulcer120 => 239
  | .max5_21 => 22
  | .priceVsVwap20 => 20
  | .residRev21 => 377
  | .rev1w => 6

section Columns

variable {m n : ℕ} {a a' b b' : Column}

/-- Rolling statistics agree a window short of their columns. -/
theorem agree_rolling (h : Agree n a a') (w mp : ℕ) (stat : List ℚ → Option ℚ) :
    Agree (n - (w - 1)) (rolling w mp stat a) (rolling w mp stat a') :=
  h.roll w _

/-- A window that shows too few values has no statistic. -/
theorem rolling_of_few {w mp k : ℕ} (stat : List ℚ → Option ℚ)
    (h : (present (trailing w a k)).length < mp) : rolling w mp stat a k = nan :=
  if_neg h.not_ge

/-- A window that shows enough values has its statistic. -/
theorem rolling_of_enough {w mp k : ℕ} (stat : List ℚ → Option ℚ)
    (h : mp ≤ (present (trailing w a k)).length) :
    rolling w mp stat a k = given (stat (present (trailing w a k))) :=
  if_pos h

/-- Columns that agree do so with their zeros dropped. -/
theorem agree_nonzero (h : Agree n a a') : Agree n (nonzero a) (nonzero a') :=
  h.map fun x => if x = fin 0 then nan else x

/-- They do so with all but positive values dropped. -/
theorem agree_positive (h : Agree n a a') : Agree n (positive a) (positive a') :=
  h.map fun x => if fin 0 < x then x else nan

/-- Their rises agree. -/
theorem agree_rises (h : Agree n a a') : Agree n (rises a) (rises a') :=
  h.map fun x => if x = nan then nan else if fin 0 < x then fin 1 else fin 0

/-- Their falls agree. -/
theorem agree_falls (h : Agree n a a') : Agree n (falls a) (falls a') :=
  h.map fun x => if x < fin 0 then x else nan

/-- Changes agree as far as both columns do. -/
theorem agree_change (h : Agree m a a') (h' : Agree n b b') :
    Agree (min m n) (change a b) (change a' b') :=
  h.zip h' _

/-- So do differences. -/
theorem agree_difference (h : Agree m a a') (h' : Agree n b b') :
    Agree (min m n) (difference a b) (difference a' b') :=
  h.zip h' _

/-- So do products. -/
theorem agree_product (h : Agree m a a') (h' : Agree n b b') :
    Agree (min m n) (product a b) (product a' b') :=
  h.zip h' _

/-- So do quotients. -/
theorem agree_quotient (h : Agree m a a') (h' : Agree n b b') :
    Agree (min m n) (quotient a b) (quotient a' b') :=
  h.zip h' _

/-- A change over `s` sessions, some sessions ago. -/
theorem agree_momentum (h : Agree n a a') (r s : ℕ) :
    Agree (min (n - r) (n - s)) (change (shift r a) (shift s a))
      (change (shift r a') (shift s a')) :=
  agree_change (h.shift r) (h.shift s)

/-- Returns agree one row short. -/
theorem agree_ret (h : Agree n a a') : Agree (n - 1) (ret a) (ret a') :=
  (agree_change h (h.shift 1)).mono (by omega)

/-- The move of the benchmark agrees 125 rows short. -/
theorem agree_benchMove (h : Agree n b b') : Agree (n - 125) (benchMove b) (benchMove b') :=
  (agree_difference h (agree_rolling h 126 90 average)).mono (by omega)

/-- Its variance agrees 250 rows short. -/
theorem agree_benchVar (h : Agree n b b') : Agree (n - 250) (benchVar b) (benchVar b') :=
  (agree_rolling (agree_product (agree_benchMove h) (agree_benchMove h)) 126 90 average).mono
    (by omega)

/-- The beta of a name agrees as far as both let it. -/
theorem agree_beta (h : Agree m a a') (h' : Agree n b b') :
    Agree (min (m - 126) (n - 250)) (beta a b) (beta a' b') := by
  have hcov := agree_rolling (agree_product (agree_ret h) (agree_benchMove h')) 126 90 average
  exact (agree_quotient hcov (agree_nonzero (agree_benchVar h'))).mono (by omega)

/-- So do the residuals. -/
theorem agree_resid (h : Agree m a a') (h' : Agree n b b') :
    Agree (min (m - 126) (n - 250)) (resid a b) (resid a' b') := by
  have hown := agree_difference (agree_ret h) (agree_rolling (agree_ret h) 126 90 average)
  exact (agree_difference hown (agree_product (agree_beta h h') (agree_benchMove h'))).mono
    (by omega)

/-- The longest chain of the frame: four windows of 126 sessions, one behind another. -/
theorem agree_residRatio (num : Numerics) (h : Agree m a a') (h' : Agree n b b') :
    Agree (min (m - 251) (n - 375)) (residRatio num a b) (residRatio num a' b') := by
  have hresid := agree_resid h h'
  exact (agree_quotient (agree_rolling hresid 21 15 total)
    (agree_nonzero (agree_rolling hresid 126 90 (deviation num)))).mono (by omega)

end Columns

section Depth

variable {num : Numerics} {rows rows' n : ℕ} {q : Quotes rows} {q' : Quotes rows'}
  {b b' : Column}

/-- Frames with the same newest sessions give a factor the same value. -/
theorem factor_congr (hq : ∀ feed, Agree n (q.column feed) (q'.column feed))
    {f : Factor} (hf : f ≠ .residRev21) (hrows : f = .max5_21 → (21 ≤ rows ↔ 21 ≤ rows'))
    (hdepth : depth f ≤ n) :
    factor num q b f 0 = factor num q' b' f 0 := by
  have hc := hq .close
  have hd := hq .delivPct
  have hr := agree_ret hc
  cases f <;> simp only [depth] at hdepth
  case intradayMom126 =>
    exact ((agree_rolling (agree_change hc (agree_positive (hq .openPrice))) 126 _ _).shift
      21).newest (by omega)
  case mom12_6 => exact (agree_momentum hc 126 252).newest (by omega)
  case mom2_0 => exact (agree_momentum hc 0 42).newest (by omega)
  case mom3_1 => exact (agree_momentum hc 21 63).newest (by omega)
  case momAccel =>
    exact (agree_difference (agree_momentum hc 21 63) (agree_momentum hc 21 126)).newest (by omega)
  case momConsist126 =>
    exact ((agree_rolling (agree_rises hr) 126 _ _).shift 21).newest (by omega)
  case prox52w =>
    exact (agree_change (hc.shift 21)
      (agree_nonzero ((agree_rolling hc 252 200 largest).shift 21))).newest (by omega)
  case prox52wNow =>
    exact (agree_change hc (agree_nonzero (agree_rolling hc 252 200 largest))).newest (by omega)
  case voladjMom12_1 =>
    exact (agree_quotient (agree_momentum hc 21 252)
      (agree_nonzero (agree_rolling hr 252 _ (deviation num)))).newest (by omega)
  case voladjMom6_1 =>
    exact (agree_quotient (agree_momentum hc 21 126)
      (agree_nonzero (agree_rolling hr 126 _ (deviation num)))).newest (by omega)
  case marginStability =>
    have hmargin : Agree n
        (netMargin (q.column .ttmRevenue) (q.column .ttmNetProfit) (q.column .fundAgeDays))
        (netMargin (q'.column .ttmRevenue) (q'.column .ttmNetProfit) (q'.column .fundAgeDays)) :=
      fun k hk => by
        rw [netMargin, netMargin, hq .fundAgeDays k hk, (agree_quotient (hq .ttmNetProfit)
          (agree_nonzero (hq .ttmRevenue))) k (by omega)]
    exact congrArg (fun x => -x)
      ((agree_rolling hmargin 504 250 (deviation num)).newest (by omega))
  case delivChg5 =>
    exact (agree_difference (agree_rolling hd 5 3 average) (agree_rolling hd 60 _ average)).newest
      (by omega)
  case delivPct60 => exact (agree_rolling hd 60 _ average).newest (by omega)
  case delivZ21 =>
    exact (agree_quotient (agree_difference (agree_rolling hd 21 _ average)
      (agree_rolling hd 252 150 average))
      (agree_nonzero (agree_rolling hd 252 150 (deviation num)))).newest (by omega)
  case downsideVol60 =>
    exact (agree_rolling (agree_falls hr) 60 20 (deviation num)).newest (by omega)
  case retKurt126 => exact (agree_rolling hr 126 90 num.kurt).newest (by omega)
  case ulcer120 =>
    have hdrawdown := agree_change hc (agree_nonzero (agree_rolling hc 120 72 largest))
    exact congrArg (root num)
      ((agree_rolling (agree_product hdrawdown hdrawdown) 120 72 average).newest (by omega))
  case max5_21 =>
    have hfive := (hr.roll 21 topFive).newest (by omega)
    have hrows := hrows rfl
    rw [factor, factor, max5, max5, hfive]
    exact if_congr (by omega) rfl rfl
  case priceVsVwap20 =>
    exact (agree_change hc (agree_nonzero (agree_rolling (hq .vwap) 20 _ average))).newest
      (by omega)
  case residRev21 => exact absurd rfl hf
  case rev1w => exact (agree_momentum hc 0 5).newest (by omega)

end Depth

section Frames

variable {ι : Type} {num : Numerics} {panel : Panel ι} {n : ℕ} {i : ι}

/-- A frame cut to its newest sessions agrees with the whole one on these. -/
theorem agree_last {rows : ℕ} (q : Quotes rows) (feed : Feed) :
    Agree n ((q.last n).column feed) (q.column feed) :=
  agree_cut n nan (q.column feed)

/-- The equal-weight return loses one session to the shorter frame. -/
theorem agree_benchRet (panel : Panel ι) (n : ℕ) :
    Agree (n - 1) (panel.last n).benchRet panel.benchRet := by
  intro k hk
  have hrets : ((panel.last n).index.map fun i =>
      ret (((panel.last n).quotes i).column .close) k) =
      panel.index.map fun i => ret ((panel.quotes i).column .close) k :=
    List.map_congr_left fun i _ => agree_ret (agree_last (panel.quotes i) .close) k hk
  rw [Panel.benchRet, Panel.benchRet, hrets]

/-- A value over a missing one is missing. -/
theorem div_nan (x : FloatVal) : x / nan = nan := by cases x <;> rfl

/-- The oldest session of a shorter frame has no return. -/
theorem ret_cut_of_le {a : Column} {k : ℕ} (hk : n ≤ k + 1) : ret (cut n nan a) k = nan := by
  have hprev : shift 1 (cut n nan a) k = nan := if_neg hk.not_gt
  change cut n nan a k / shift 1 (cut n nan a) k - fin 1 = nan
  rw [hprev, div_nan]
  rfl

/-- A shorter frame shows no more returns. -/
theorem seen_cut_le (a : Column) (rows : ℕ) :
    seen (cut n nan a) (min rows n) 0 ≤ seen a rows 0 := by
  rw [seen, seen, List.drop_zero, List.drop_zero]
  have hmono : (List.range (min rows n)).countP (fun j => ret (cut n nan a) j ≠ nan) ≤
      (List.range (min rows n)).countP fun j => ret a j ≠ nan := by
    refine List.countP_mono_left fun j _ hj => ?_
    have hj := of_decide_eq_true hj
    by_cases hlast : n ≤ j + 1
    · exact absurd (ret_cut_of_le hlast) hj
    · rw [agree_ret (agree_cut n nan a) j (by omega)] at hj
      exact decide_eq_true hj
  exact hmono.trans (List.Sublist.countP_le
    (List.range_sublist.mpr (min_le_left rows n)))

/-- There are no more returns than sessions. -/
theorem seen_le (a : Column) (rows : ℕ) : seen a rows 0 ≤ rows := by
  rw [seen, List.drop_zero]
  exact List.countP_le_length.trans List.length_range.le

/-- The value of `resid_rev_21` is the ratio once enough returns are there. -/
theorem residRev_zero (a b : Column) (rows : ℕ) : residRev num a b rows 0 =
    if residRevMinSessions ≤ seen a rows 0 then residRatio num a b 0 else nan := rfl

/-- The ratio needs the newest 377 sessions. -/
theorem residRatio_last (num : Numerics) (hn : 377 ≤ n) (a : Column) {b b' : Column}
    (hb : Agree (n - 1) b b') :
    residRatio num (cut n nan a) b 0 = residRatio num a b' 0 :=
  (agree_residRatio num (agree_cut n nan a) hb).newest (by omega)

/-- A margin that is known in the oldest 250 of 504 sessions. -/
def oldMargin : Quotes 504 where
  column
    | .ttmRevenue => fun k => if k < 504 then fin 1 else nan
    | .ttmNetProfit => fun k => if 254 ≤ k ∧ k < 504 then fin 1 else nan
    | .fundAgeDays => fun k => if k < 504 then fin 0 else nan
    | _ => fun _ => nan
  begins feed k hk := by
    cases feed <;> first | rfl | exact if_neg (by omega)

/-- The panel of the one name. -/
def oldMarginPanel : Panel Unit where
  rows := 504
  index := [()]
  nodup := List.nodup_singleton ()
  quotes _ := oldMargin

/-- The margin a frame of `n` sessions sees. -/
def cutMargin (n : ℕ) : Column :=
  netMargin (cut n nan (oldMargin.column .ttmRevenue)) (cut n nan (oldMargin.column .ttmNetProfit))
    (cut n nan (oldMargin.column .fundAgeDays))

/-- The margin is known in the oldest 250 sessions that a frame has. -/
theorem isSome_cutMargin (n k : ℕ) :
    (cutMargin n k).toRat?.isSome = decide (254 ≤ k ∧ k < min 504 n) := by
  have hage : (fin 0 ≤ fin maxAgeDays) := fin_le_fin.mpr (by norm_num [maxAgeDays])
  have hone : fin 1 / fin 1 = fin (1 / 1) := fin_div_fin one_ne_zero
  have hnone : nan / fin 1 = nan := rfl
  have hmissing : nan.toRat? = none := rfl
  by_cases hk : k < min 504 n
  · obtain ⟨hrows, hn⟩ := lt_min_iff.mp hk
    by_cases hold : 254 ≤ k <;>
      simp [cutMargin, netMargin, quotient, zip, nonzero, cut, oldMargin, finite,
        hrows, hn, hold, hage, hone, hnone, hmissing]
  · have hgone : cut n nan (oldMargin.column .fundAgeDays) k = nan :=
      (oldMargin.last n).begins .fundAgeDays k (not_lt.mp hk)
    rw [cutMargin, netMargin, hgone, if_neg (not_nan_le _), decide_eq_false fun h => hk h.2]
    rfl

/-- How many margins the window of `margin_stability` has. -/
theorem length_cutMargin (n : ℕ) : (present (trailing 504 (cutMargin n) 0)).length =
    (List.range 504).countP fun k => 254 ≤ k ∧ k < min 504 n := by
  rw [present, trailing, List.filterMap_map, List.length_filterMap_eq_countP]
  refine List.countP_congr fun k _ => ?_
  rw [Function.comp_apply, Nat.zero_add, isSome_cutMargin]

/-- A frame of all 504 sessions has the whole margin. -/
theorem cutMargin_whole : cutMargin 504 = netMargin (oldMargin.column .ttmRevenue)
    (oldMargin.column .ttmNetProfit) (oldMargin.column .fundAgeDays) := by
  have hwhole : ∀ feed, cut 504 nan (oldMargin.column feed) = oldMargin.column feed := fun feed =>
    cut_of_le (oldMargin.begins feed)
  rw [cutMargin, hwhole, hwhole, hwhole]

/-- What a frame of `n` sessions makes of the margin. -/
def stabilityOf (num : Numerics) (n : ℕ) : FloatVal :=
  -(rolling 504 250 (deviation num) (cutMargin n) 0)

/-- A shorter frame has no stability of it. -/
theorem stabilityOf_of_lt (num : Numerics) {n : ℕ} (hn : n < 504) : stabilityOf num n = nan := by
  have hfew : (present (trailing 504 (cutMargin n) 0)).length < 250 := by
    rw [length_cutMargin]
    have hmono : (List.range 504).countP (fun k => 254 ≤ k ∧ k < min 504 n) ≤
        (List.range 504).countP fun k => 254 ≤ k ∧ k < 503 :=
      List.countP_mono_left fun k _ hk => decide_eq_true (by
        have hk := of_decide_eq_true hk
        omega)
    have hcount : (List.range 504).countP (fun k => 254 ≤ k ∧ k < 503) = 249 := by decide +kernel
    omega
  rw [stabilityOf, rolling_of_few _ hfew]
  rfl

/-- The stability is the deviation of the margin over its window, negated. -/
theorem marginStability_value (num : Numerics) (panel : Panel ι) (benchRet : Column) (i : ι) :
    (factorFrame num panel benchRet).value .marginStability i =
      (-(rolling 504 250 (deviation num) (netMargin ((panel.quotes i).column .ttmRevenue)
        ((panel.quotes i).column .ttmNetProfit)
        ((panel.quotes i).column .fundAgeDays)) 0)).toRat? := by
  dsimp only [factorFrame, factorValue, factor, marginStability]

theorem last_column (panel : Panel ι) (n : ℕ) (i : ι) (feed : Feed) :
    ((panel.last n).quotes i).column feed = cut n nan ((panel.quotes i).column feed) := rfl

theorem oldMarginPanel_column (feed : Feed) :
    (oldMarginPanel.quotes ()).column feed = oldMargin.column feed := rfl

/-- The whole frame has one. -/
theorem isFinite_stabilityOf (num : Numerics) : (stabilityOf num 504).isFinite = true := by
  have hlength : (present (trailing 504 (cutMargin 504) 0)).length = 250 := by
    rw [length_cutMargin]
    decide +kernel
  rw [stabilityOf, isFinite_neg, rolling_of_enough _ hlength.ge, deviation, hlength]
  rfl

end Frames

section Enough

variable {ι : Type}

/-- How deep a frame has to be. A shorter frame gives every factor but
`resid_rev_21` the value of the whole history as soon as it has the sessions
the factor looks at; `resid_rev_21` it gives, however short it is, the same
value or, while it shows too few returns, none. The frame that is read has the sessions of every factor
but `margin_stability`, which a frame of fewer than 504 sessions can lose. -/
theorem factorFrame_deepEnough (num : Numerics) :
    (∀ (panel : Panel ι) (n : ℕ) (i : ι) (f : Factor), f ≠ .residRev21 → depth f ≤ n →
      (factorFrame num (panel.last n) (panel.last n).benchRet).value f i =
        (factorFrame num panel panel.benchRet).value f i) ∧
    (∀ (panel : Panel ι) (n : ℕ) (i : ι),
      (∀ x, (factorFrame num (panel.last n) (panel.last n).benchRet).value .residRev21 i =
        some x → (factorFrame num panel panel.benchRet).value .residRev21 i = some x) ∧
      (residRevMinSessions ≤
          seen (((panel.last n).quotes i).column .close) (panel.last n).rows 0 →
        (factorFrame num (panel.last n) (panel.last n).benchRet).value .residRev21 i =
          (factorFrame num panel panel.benchRet).value .residRev21 i)) ∧
    (∀ f, depth f ≤ frameSessions ↔ f ≠ .marginStability) ∧
    ∀ n < depth .marginStability, ∃ panel : Panel Unit,
      (factorFrame num (panel.last n) (panel.last n).benchRet).value .marginStability () = none ∧
      (factorFrame num panel panel.benchRet).value .marginStability () ≠ none := by
  refine ⟨fun panel n i f hf hdepth => ?_, fun panel n i => ?_, fun f => ?_, fun n hn => ?_⟩
  · have hrows : f = .max5_21 → (21 ≤ min panel.rows n ↔ 21 ≤ panel.rows) := by
      rintro rfl
      simp only [depth] at hdepth
      omega
    exact congrArg toRat? (factor_congr (agree_last (panel.quotes i)) hf hrows hdepth)
  · have hseen := seen_cut_le (n := n) ((panel.quotes i).column .close) panel.rows
    have henough : residRevMinSessions ≤
        seen (((panel.last n).quotes i).column .close) (panel.last n).rows 0 →
        (factorFrame num (panel.last n) (panel.last n).benchRet).value .residRev21 i =
          (factorFrame num panel panel.benchRet).value .residRev21 i := fun h => by
      -- As many returns as are asked for take more sessions than the ratio looks at.
      have hn : residRevMinSessions ≤ n := (h.trans (seen_le _ _)).trans (min_le_right _ _)
      have hratio := residRatio_last num (le_trans (by decide) hn)
        ((panel.quotes i).column .close) (agree_benchRet panel n)
      refine congrArg toRat? ?_
      rw [factor, factor, residRev_zero, residRev_zero, if_pos h, if_pos (h.trans hseen)]
      exact hratio
    refine ⟨fun x hx => ?_, henough⟩
    by_cases h : residRevMinSessions ≤
        seen (((panel.last n).quotes i).column .close) (panel.last n).rows 0
    · rw [← henough h, hx]
    · have hnone : (factorFrame num (panel.last n) (panel.last n).benchRet).value .residRev21 i =
          none := by
        change (residRev num _ _ _ 0).toRat? = none
        rw [residRev_zero, if_neg h]
        rfl
      rw [hnone] at hx
      cases hx
  · cases f <;> decide
  · refine ⟨oldMarginPanel, ?_, ?_⟩
    · have hlost := stabilityOf_of_lt num hn
      rw [stabilityOf, cutMargin] at hlost
      simp only [marginStability_value, last_column, oldMarginPanel_column, hlost]
      rfl
    · have hkept := isFinite_stabilityOf num
      rw [stabilityOf, cutMargin_whole] at hkept
      simp only [marginStability_value, oldMarginPanel_column]
      exact Option.isSome_iff_ne_none.mp hkept

end Enough

end Prosignal.V3Factors
