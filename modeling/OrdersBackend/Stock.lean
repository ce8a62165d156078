import OrdersBackend.SystemSound

/-!
# Stock

Whatever calls, deliveries and crashes have happened, the stock of a product
and what the live orders hold of it add up to what there was.
-/

namespace OrdersBackend

open Conc

variable {cfg : Config} {c : Catalogue} {conf : SysConf}

theorem product?_of_shape {ps : List Product} {db : Db} (h : shape db.products = shape ps)
    (hn : (ps.map (·.id)).Nodup) {p : Product} (hp : p ∈ ps) :
    ∃ product, db.product? p.id = some product ∧ product.setStock 0 = p.setStock 0 := by
  have hm : p.setStock 0 ∈ shape db.products := by
    rw [h]; exact List.mem_map_of_mem hp
  obtain ⟨product, hproduct, he⟩ := List.mem_map.mp hm
  have hid : product.id = p.id := by simpa [Product.setStock] using congrArg Product.id he
  have hn' : (db.products.map (·.id)).Nodup := by rw [ids_of_shape h]; exact hn
  refine ⟨product, ?_, he⟩
  unfold Db.product?
  cases hf : db.products.find? fun x => x.id = p.id with
  | none => simpa [hid] using List.find?_eq_none.mp hf product hproduct
  | some product' =>
    have hid' : product'.id = p.id := by simpa using List.find?_some hf
    exact congrArg some (List.inj_on_of_nodup_map hn' (List.mem_of_find?_eq_some hf) hproduct
      (hid'.trans hid.symm))

theorem stockIn_of_mem {ps : List Product} (hn : (ps.map (·.id)).Nodup) {p : Product} (hp : p ∈ ps) :
    stockIn ps p.id = p.stock := by
  unfold stockIn
  cases hf : ps.find? fun x => x.id = p.id with
  | none => simpa using List.find?_eq_none.mp hf p hp
  | some p' =>
    have hid : p'.id = p.id := by simpa using List.find?_some hf
    rw [List.inj_on_of_nodup_map hn (List.mem_of_find?_eq_some hf) hp hid]
    rfl

theorem stock_conserved (h : Reachable cfg c conf) {p : Product} (hp : p ∈ c.products) :
    ∃ product, conf.world.db.product? p.id = some product ∧ 0 ≤ product.stock ∧
      product.stock + conf.world.db.reserved p.id = p.stock := by
  have hT := h.saga.inv.tables
  obtain ⟨product, hf, _⟩ := product?_of_shape hT.products c.productIds hp
  have hstock : conf.world.db.stock p.id = product.stock := by
    unfold Db.product? at hf
    rw [Db.stock, stockIn, hf]
    rfl
  refine ⟨product, hf, ?_, ?_⟩
  · rw [← hstock]; exact hT.nonneg p.id
  · rw [← hstock, ← stockIn_of_mem c.productIds hp]
    exact hT.conserved p.id

theorem stock_conserved_mug :
    ∃ product, ((Catalogue.shop 3).after (.ofPool 2 .repository)
        (requestSteps 0 (mugRequest 0 "k") 11)).world.db.product? 0 = some product ∧ 0 ≤ product.stock ∧
      product.stock + 1 = 3 :=
  stock_conserved (c := .shop 3) (Catalogue.reachable_after (.ofPool 2 .repository) (.shop 3)
    (requestSteps 0 (mugRequest 0 "k") 11)) (p := ⟨0, "Mug", 500, 3, none⟩) (by decide)

end OrdersBackend
