import CoinLedger.Proofs.Funding.LargestFirst
import CoinLedger.Proofs.Ledger.BuildTransaction

/-! # The order in which coins are offered

Coins are offered to be chosen from in no particular order.  If all inputs weigh the same, then the
amount, the fee and any failure are the same whatever the order (`Alike`), since only values and
weights count (`choose_alike`).  Which coins are chosen depends on it only if there are several of one
value: if not, there is just one falling order (`FallingOrder.unique`).

With coins of different values a transaction is built in the same way whatever their order
(`run_buildTransaction_eq`).  `choose_anyOrder` puts the three together. -/

namespace CoinLedger

open Ledger Key

/-! ### Choosing -/

/-- Both results are choices of one amount at one fee, or both are one failure. -/
def Alike : Except Error Selection → Except Error Selection → Prop
  | .ok s, .ok s' => s.amount = s'.amount ∧ s.fee = s'.fee
  | .error e, .error e' => e = e'
  | _, _ => False

/-- What is taken comes to the same if values and weights are the same. -/
theorem takeUntilPaid_tally (rate : FeeRate) (needed : UInt64) :
    ∀ {t : Tally} {ws vs : List WeightedUtxo}, ws.map (·.value) = vs.map (·.value) →
      ws.map (·.weight) = vs.map (·.weight) →
      (takeUntilPaid rate needed t ws).2 = (takeUntilPaid rate needed t vs).2
  | _, [], [], _, _ => rfl
  | _, [], _ :: _, hvalues, _ => by cases hvalues
  | _, _ :: _, [], hvalues, _ => by cases hvalues
  | t, w :: ws, v :: vs, hvalues, hweights => by
      obtain ⟨hvalue, hvalues⟩ := List.cons.inj hvalues
      obtain ⟨hweight, hweights⟩ := List.cons.inj hweights
      dsimp only at hvalue hweight
      have htake : t.take rate w = t.take rate v := by
        rw [Tally.take, Tally.take, hvalue, hweight]
      rw [takeUntilPaid, takeUntilPaid]
      split
      · rw [htake]
        exact takeUntilPaid_tally rate needed hvalues hweights
      · rfl

namespace Demand

theorem choose_alike (d : Demand) {order order' : List WeightedUtxo}
    (hvalues : order.map (·.value) = order'.map (·.value))
    (hweights : order.map (·.weight) = order'.map (·.weight)) :
    Alike (d.choose order) (d.choose order') := by
  have htotal : totalValue (d.required ++ order) = totalValue (d.required ++ order') := by
    rw [totalValue, totalValue, List.map_append, List.map_append, hvalues]
  have htally := takeUntilPaid_tally d.rate d.needed
    (t := d.required.foldl (Tally.take d.rate) ⟨0, d.fee⟩) hvalues hweights
  unfold choose
  dsimp only
  rw [htotal, htally]
  split
  · rfl
  · exact ⟨rfl, rfl⟩

end Demand

namespace FallingOrder

variable {coins coins' order order' : List WeightedUtxo}

theorem of_perm (h : FallingOrder coins order) (hperm : coins.Perm coins') :
    FallingOrder coins' order := ⟨h.perm.trans hperm, h.falling⟩

/-- The values of all falling orders are the same. -/
theorem map_value_eq (h : FallingOrder coins order) (h' : FallingOrder coins order') :
    order.map (·.value) = order'.map (·.value) := by
  have hfalling : (order.map (·.value)).Pairwise fun x y => y ≤ x := List.pairwise_map.2 h.falling
  have hfalling' : (order'.map (·.value)).Pairwise fun x y => y ≤ x :=
    List.pairwise_map.2 h'.falling
  exact List.Perm.eq_of_pairwise (fun _ _ _ _ hle hge => UInt64.le_antisymm hge hle) hfalling
    hfalling' ((h.perm.trans h'.perm.symm).map _)

/-- Coins of different values have one falling order. -/
theorem unique (h : FallingOrder coins order) (h' : FallingOrder coins order')
    (hnodup : (coins.map (·.value)).Nodup) : order = order' := by
  have hids := map_eq_map_of_keys (p := id) (q := id) (h.map_value_eq h') fun v hv w hw hsame =>
    List.inj_on_of_nodup_map hnodup (h.perm.subset hv) (h'.perm.subset hw) hsame
  rwa [List.map_id, List.map_id] at hids

end FallingOrder

/-- Coins of different values are chosen from in the same way whatever their order, and however they
are sorted. -/
theorem largestFirstBy_eq_of_perm (sort sort' : FallingSort) {coins coins' : List WeightedUtxo}
    (hperm : coins.Perm coins') (hnodup : (coins.map (·.value)).Nodup)
    (required : List WeightedUtxo) :
    largestFirstBy sort required coins = largestFirstBy sort' required coins' := by
  funext rate needed fee
  have horder : sort coins = sort' coins' :=
    (sort.fallingOrder coins).unique ((sort'.fallingOrder coins').of_perm hperm.symm) hnodup
  have hchoose := largestFirstBy_eq_choose sort ⟨required, rate, needed, fee⟩ coins
  have hchoose' := largestFirstBy_eq_choose sort' ⟨required, rate, needed, fee⟩ coins'
  exact hchoose.trans (horder ▸ hchoose'.symm)

/-! ### Building -/

/-- What is built depends on the coins that may be spent by the choice among them alone. -/
theorem TxBuilder.finish_congr {b : TxBuilder} {selector : Selector} {coins : List WeightedUtxo}
    (h : selector b.mustSpend coins = b.selector b.mustSpend b.maySpend) :
    { b with maySpend := coins, selector := selector }.finish = b.finish := by
  unfold finish
  simp only [h]
  rfl

namespace Ledger

/-- Coins of different values are offered in any order to the same end. -/
theorem Payout.finish_offer_eq (p : Payout) (order order' : CoinOrder) {coins : List Coin}
    (hnodup : (coins.map (·.value)).Nodup) (keys : SigningKeys) :
    { p.offer order coins with signingKeys := keys }.finish =
      { p.offer order' coins with signingKeys := keys }.finish := by
  have harranged : (order.arrange coins).Perm (order'.arrange coins) :=
    (order.arrange_perm coins).trans (order'.arrange_perm coins).symm
  have hvalues : (((order.arrange coins).map fun c => WeightedUtxo.ofKeyHash c.utxo).map
      (·.value)).Nodup := by
    rw [List.map_map]
    exact ((order.arrange_perm coins).map _).nodup_iff.2 hnodup
  exact TxBuilder.finish_congr (b := { p.offer order' coins with signingKeys := keys })
    (largestFirstBy_eq_of_perm order.sort order'.sort (harranged.map _) hvalues [])

theorem lastByOutpoint_sublist : ∀ coins : List Coin, (lastByOutpoint coins).Sublist coins
  | [] => .slnil
  | c :: cs => by
      rw [lastByOutpoint]
      split
      · exact (lastByOutpoint_sublist cs).cons c
      · exact (lastByOutpoint_sublist cs).cons_cons c

/-- Coins of different values pay in the same way whatever their order. -/
theorem payFromAll_eq (order order' : CoinOrder) {groups : List CoinGroup}
    (hnodup : ((groupCoins groups).map (·.value)).Nodup) (master : ExtendedKey) (p : Payout) :
    payFromAll order master groups p = payFromAll order' master groups p := by
  have hlast := hnodup.sublist ((lastByOutpoint_sublist (groupCoins groups)).map _)
  exact congrArg (addGroupKeys master .empty groups >>= ·)
    (funext (p.finish_offer_eq order order' hlast))

theorem run_bind_congr {α β : Type} {l : Ledger} {a : Action α} {f g : α → Action β}
    (h : ∀ x l', l.run a = (.ok x, l') → l'.run (f x) = l'.run (g x)) :
    l.run (a >>= f) = l.run (a >>= g) := by
  rw [run_bind, run_bind]
  rcases hrun : l.run a with ⟨e | x, l'⟩
  · rfl
  · exact h x l' hrun

/-- If the coins that come to be listed have different values, a transaction is built from them in the
same way whatever their order. -/
theorem run_buildTransaction_eq {l : Ledger} {walletId : String} (outputs : List TxOut)
    (feeRate : FeeRate) (order order' : CoinOrder)
    (hnodup : ∀ script l₁, l.run (deriveScript walletId) = (.ok script, l₁) →
      ∀ groups, spendableGroups l₁.store walletId = .ok groups →
        ((groupCoins groups).map (·.value)).Nodup) :
    l.run (buildTransaction walletId outputs feeRate [] order) =
      l.run (buildTransaction walletId outputs feeRate [] order') := by
  unfold buildTransaction
  refine run_bind_congr fun wallet l₀ hwallet => ?_
  obtain rfl : l = l₀ := by
    rw [run_read] at hwallet
    exact (Prod.mk.inj hwallet).2
  dsimp only
  split
  · rw [run_bind, run_bind, run_throw]
  · refine run_bind_congr fun script l₁ hderive => run_bind_congr fun groups _ hgroups => ?_
    rw [run_read] at hgroups
    obtain ⟨hlisted, rfl⟩ := Prod.mk.inj hgroups
    refine run_bind_congr fun master l₂ _ => ?_
    rw [payFromAll_eq order order' (hnodup script l₁ hderive groups hlisted)]

end Ledger

/-- **When the order in which coins are offered makes no difference.**  Let coins be offered in two
orders, and be chosen from in any falling orders of their values.  If all inputs weigh the same, then
the amount and the fee that are chosen are the same, or the failure is.  If no two coins have one
value, then all that is chosen is the same.  A transaction that is built from coins of a wallet of
which no two have one value is the same, as are its coins and its fee, in whatever order they stand
when they are offered and however they are sorted. -/
theorem choose_anyOrder (d : Demand) {coins coins' order order' : List WeightedUtxo}
    (hperm : coins.Perm coins') (horder : FallingOrder coins order)
    (horder' : FallingOrder coins' order') (o o' : CoinOrder) (l : Ledger) (walletId : String)
    (outputs : List TxOut) (feeRate : FeeRate) :
    (SameWeights coins → Alike (d.choose order) (d.choose order') ∧
      Alike (largestFirstBy o.sort d.required coins d.rate d.needed d.fee)
        (largestFirstBy o'.sort d.required coins' d.rate d.needed d.fee)) ∧
    ((coins.map (·.value)).Nodup → d.choose order = d.choose order' ∧
      largestFirstBy o.sort d.required coins d.rate d.needed d.fee =
        largestFirstBy o'.sort d.required coins' d.rate d.needed d.fee) ∧
    ((∀ script l₁, l.run (deriveScript walletId) = (.ok script, l₁) →
        ∀ groups, spendableGroups l₁.store walletId = .ok groups →
          ((groupCoins groups).map (·.value)).Nodup) →
      l.run (buildTransaction walletId outputs feeRate [] o) =
        l.run (buildTransaction walletId outputs feeRate [] o')) := by
  have halike : ∀ {order order'}, FallingOrder coins order → FallingOrder coins order' →
      SameWeights coins → Alike (d.choose order) (d.choose order') := by
    intro order order' h h' hweights
    refine d.choose_alike (h.map_value_eq h') (hweights.map_weight_eq h.perm.subset h'.perm.subset ?_)
    rw [h.perm.length_eq, h'.perm.length_eq]
  refine ⟨fun hweights => ⟨halike horder (horder'.of_perm hperm.symm) hweights, ?_⟩,
    fun hnodup => ⟨?_, ?_⟩, run_buildTransaction_eq outputs feeRate o o'⟩
  · rw [largestFirstBy_eq_choose, largestFirstBy_eq_choose]
    exact halike (o.sort.fallingOrder _) ((o'.sort.fallingOrder _).of_perm hperm.symm) hweights
  · rw [horder.unique (horder'.of_perm hperm.symm) hnodup]
  · rw [largestFirstBy_eq_of_perm o.sort o'.sort hperm hnodup]

open Demand (coinAt)

-- of two coins of one value it is the first that is chosen
example : (Demand.sevenThousand.choose [coinAt 1 9000, coinAt 2 9000]).toOption.map (·.selected) ≠
    (Demand.sevenThousand.choose [coinAt 2 9000, coinAt 1 9000]).toOption.map (·.selected) := by
  decide +kernel

/-! ### A wallet that was paid twice -/

/-- The coin of another payment. -/
def laterCoin (script : Script) (value : UInt64) : Coin := ⟨⟨repeatedTxid 2, 0⟩, script, value, none⟩

theorem repeatedTxid_one_ne : (⟨repeatedTxid 1, 0⟩ : Outpoint) ≠ ⟨repeatedTxid 2, 0⟩ := by
  decide

/-- A report of another transaction that pays a script of the wallet. -/
def laterReport (walletId : String) (script : Script) (value : UInt64) : Report where
  wallet := walletId
  source := .scheme "scheme"
  event :=
    { txid := repeatedTxid 2, block := none, replaced := none, inputs := [],
      outputs := [⟨0, script, value, none⟩] }

/-- A wallet that was paid is paid again, and both coins are offered. -/
theorem PaidWallet.paidAgain {l : Ledger} {w : Wallet} {next : NextScript} {value : UInt64}
    (h : PaidWallet l w next value) (value' : UInt64) :
    ∃ l₂, Reachable l₂ ∧ l₂.chain = none ∧ record? Wallet l₂.store w.id = some w ∧
      l₂.nextOf w.id = .ok next ∧ KeyedScripts l₂.store w ∧
      ∀ {l' groups master}, Prepared l₂ l' w next groups master →
        (groupCoins groups).Perm [paidCoin next.script value, laterCoin next.script value'] := by
  have hs := h.reachable.wellFormed
  let report := laterReport w.id next.script value'
  have hreach : Reachable (l.serve report.request) := h.reachable.served _
  have hfind : report.wallet? l.store = some w := by
    have hfind : findWallet l.store w.id = .ok (some w) := by
      rw [findWallet, hs.sound.getEntity, h.stored]
      rfl
    rw [Report.wallet?, show report.wallet = w.id from rfl, hfind]
  have hstored : record? Wallet (l.serve report.request).store w.id = some w := by
    have hrows : SameRows (Entity.kind Wallet) l.store (l.serve report.request).store :=
      sameRows_serve hs.sound (by simp [report, Report.request, Request.writes, Entity.kind])
    rw [hrows.record?_eq, h.stored]
  have hnext : (l.serve report.request).nextOf w.id = .ok next := by
    refine (nextOf_serve hs h.reachable.informed ?_ ?_ w.id).trans h.derivable
    · rintro _ ⟨⟩
    · simp [report, Report.request, Request.writes]
  have hscripts : ∀ k, record? WalletScript (l.serve report.request).store k =
      record? WalletScript l.store k := by
    intro k
    have hserve := record?_serveAll (α := WalletScript) hs [report] k
    rw [List.flatMap_cons, List.flatMap_nil, List.append_nil] at hserve
    have hreported : reportedScripts w report.source report.event = [⟨w.id, next.script, none⟩] := rfl
    refine hserve.trans ((onAll_batch_of_reportedScripts hfind rfl hreported k _).trans ?_)
    -- the script is known already, and so is its path
    split
    · rename_i hkey
      have hknown : record? WalletScript l.store k = some ⟨w.id, next.script, some next.path⟩ := by
        rw [record?, ← hkey]
        exact h.known
      rw [hknown]
      rfl
    · rfl
  have hcoins : ∀ o c, record? Coin (l.serve report.request).store o = some c ↔
      c.outpoint = o ∧ c ∈ [paidCoin next.script value, laterCoin next.script value'] := by
    intro o c
    have hserve := record?_coin_serveAll hs [report] o
    have hheard : heard l.store [report] = [report.event] := by
      rw [heard, List.filter_cons_of_pos (by rw [hfind]; rfl)]
      rfl
    rw [hheard] at hserve
    have hcoin : record? Coin (l.serve report.request).store o =
        if (laterCoin next.script value').outpoint = o then
          (record? Coin l.store o).or (some (laterCoin next.script value'))
        else record? Coin l.store o := hserve
    have hother : (paidCoin next.script value).outpoint ≠ (laterCoin next.script value').outpoint :=
      repeatedTxid_one_ne
    rw [hcoin]
    by_cases ho : (laterCoin next.script value').outpoint = o
    · subst ho
      have hnone : record? Coin l.store (laterCoin next.script value').outpoint = none :=
        Option.eq_none_iff_forall_ne_some.2 fun c hc => hother ((h.coins _ _).1 hc).1
      rw [if_pos rfl, hnone, Option.none_or]
      constructor
      · rintro ⟨⟩
        exact ⟨rfl, by simp⟩
      · rintro ⟨hsame, hc⟩
        rcases List.mem_pair.1 hc with rfl | rfl
        · exact absurd hsame hother
        · rfl
    · rw [if_neg ho, h.coins]
      constructor
      · rintro ⟨rfl, rfl⟩
        exact ⟨rfl, by simp⟩
      · rintro ⟨rfl, hc⟩
        rcases List.mem_pair.1 hc with rfl | rfl
        · exact ⟨rfl, rfl⟩
        · exact absurd rfl ho
  have honly : ∀ k row, record? WalletScript (l.serve report.request).store k = some row →
      row = ⟨w.id, next.script, some next.path⟩ := fun k row hrow => h.scripts k row (hscripts k ▸ hrow)
  have hchain : (l.serve report.request).chain = none := by
    obtain ⟨s, -, hserve⟩ := report.serve_request hs
    rw [hserve]
    exact h.unwatched
  refine ⟨_, hreach, hchain, hstored, hnext, keyedScripts_of_oneScript hreach hstored hnext honly,
    fun hprepared => groupCoins_perm hreach hprepared ((hscripts _).trans h.known) ?_ hcoins ?_⟩
  · rw [List.nodup_cons, List.mem_singleton]
    exact ⟨fun hsame => repeatedTxid_one_ne (congrArg Coin.outpoint hsame), List.nodup_singleton _⟩
  · simp [paidCoin, laterCoin]

/-- Two coins of 5600 and 3000 pay 8000 and the fee. -/
theorem sumAmounts_le_of_twoCoins :
    sumAmounts [8000] + wholeSat (FeeRate.minimumRelay.feeFor headerWeight +
      FeeRate.minimumRelay.feeFor (TxOut.weight ⟨8000, ⟨[81]⟩⟩) +
        FeeRate.minimumRelay.feeFor (inputWeight + keyHashSatisfactionWeight) +
          FeeRate.minimumRelay.feeFor (inputWeight + keyHashSatisfactionWeight)) ≤
      sumAmounts [5600, 3000] := by
  decide +kernel

/-- All coins stand the other way round than they are listed, those of one value too. -/
def reversedOrder : CoinOrder where
  arrange := List.reverse
  arrange_perm := List.reverse_perm
  sort := ⟨fun coins => byValueDown coins.reverse, fun coins =>
    (fallingOrder_byValueDown coins.reverse).of_perm (List.reverse_perm coins)⟩

/-- Of two coins that are offered in either order both are chosen.  A wallet with coins of 5600 and
3000 pays 8000, and makes the same transaction if its coins are offered the other way round. -/
theorem choose_anyOrder_twoCoins :
    largestFirst [coinAt 0 1000] [coinAt 1 3000, coinAt 2 5000] .minimumRelay 7000 42.0 =
      largestFirst [coinAt 0 1000] [coinAt 2 5000, coinAt 1 3000] .minimumRelay 7000 42.0 ∧
    Alike (largestFirst [coinAt 0 1000] [coinAt 1 3000, coinAt 2 5000] .minimumRelay 7000 42.0)
      (largestFirst [coinAt 0 1000] [coinAt 2 5000, coinAt 1 3000] .minimumRelay 7000 42.0) ∧
    ∃ (l l' : Ledger) (w : Wallet) (created : CreatedTransaction), Reachable l ∧
      l.run (buildTransaction w.id [⟨8000, ⟨[81]⟩⟩] .minimumRelay []) = (.ok (some created), l') ∧
      l.run (buildTransaction w.id [⟨8000, ⟨[81]⟩⟩] .minimumRelay [] reversedOrder) =
        (.ok (some created), l') := by
  obtain ⟨_, w, next, h⟩ := exists_paidWallet 5600
  obtain ⟨l, hl, hchain, hw, hnext, hkeyed, hcoins⟩ := h.paidAgain 3000
  obtain ⟨l', groups, master, hprepared, hrun⟩ := exists_run_buildTransaction hl hchain hw hnext
    [⟨8000, ⟨[81]⟩⟩] (List.cons_ne_nil _ _) .minimumRelay [] .listed
  have hgroups := hcoins hprepared
  obtain ⟨built, hbuilt⟩ : ∃ built, payFromAll .listed master groups
      ⟨[⟨8000, ⟨[81]⟩⟩], next.script, .minimumRelay⟩ = .ok built := by
    refine exists_payFromAll_eq_ok (hkeyed.prepared hl hprepared) hprepared.unlocked
      hprepared.offered (List.cons_ne_nil _ _) rfl ?_
    -- whatever the order of the coins, the larger one stands first
    have horder : byValueDown ((groupCoins groups).map fun c => .ofKeyHash c.utxo) =
        [.ofKeyHash (paidCoin next.script 5600).utxo,
          .ofKeyHash (laterCoin next.script 3000).utxo] := by
      refine (fallingOrder_byValueDown _).unique
        ⟨(hgroups.map fun c : Coin => WeightedUtxo.ofKeyHash c.utxo).symm, ?_⟩ ?_
      · exact List.pairwise_pair.2 (show (3000 : UInt64) ≤ 5600 by decide)
      · refine ((hgroups.map _).map _).nodup_iff.2 ?_
        exact (show ([5600, 3000] : List UInt64).Nodup by decide)
    have hoffered : CoinOrder.listed.sort (Payout.offer
        ⟨[⟨8000, ⟨[81]⟩⟩], next.script, .minimumRelay⟩ .listed (groupCoins groups)).maySpend =
          byValueDown ((groupCoins groups).map fun c => .ofKeyHash c.utxo) := rfl
    rw [hoffered, horder]
    exact sumAmounts_le_of_twoCoins
  have hrun := hrun (some built) (by rw [hbuilt]; rfl)
  have hperm : [coinAt 1 3000, coinAt 2 5000].Perm [coinAt 2 5000, coinAt 1 3000] := by decide
  have horder : FallingOrder [coinAt 1 3000, coinAt 2 5000] [coinAt 2 5000, coinAt 1 3000] :=
    ⟨by decide, by decide⟩
  obtain ⟨halike, hsame, -⟩ := choose_anyOrder .sevenThousand hperm horder
    (horder.of_perm hperm) .listed .listed l w.id [⟨8000, ⟨[81]⟩⟩] .minimumRelay
  obtain ⟨-, -, hledger⟩ := choose_anyOrder .sevenThousand hperm horder (horder.of_perm hperm)
    reversedOrder .listed l w.id [⟨8000, ⟨[81]⟩⟩] .minimumRelay
  have hweights : SameWeights [coinAt 1 3000, coinAt 2 5000] := by
    unfold SameWeights
    decide
  refine ⟨(hsame (by decide)).2, (halike hweights).2, l, l', w, _, hl, hrun,
    (hledger fun script l₁ hderive groups' hgroups' => ?_).trans hrun⟩
  obtain rfl := hprepared.groups_eq hl hderive hgroups'
  exact (hgroups.map _).nodup_iff.2 (show ([5600, 3000] : List UInt64).Nodup by decide)

end CoinLedger
