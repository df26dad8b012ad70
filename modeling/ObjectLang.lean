import ObjectLang.Main
import ObjectLang.Proofs.Access
import ObjectLang.Proofs.Ancestry
import ObjectLang.Proofs.Assignment
import ObjectLang.Proofs.Binding
import ObjectLang.Proofs.Catalog
import ObjectLang.Proofs.Depth
import ObjectLang.Proofs.Embedding
import ObjectLang.Proofs.Failure
import ObjectLang.Proofs.Fitting
import ObjectLang.Proofs.Isolation
import ObjectLang.Proofs.Privacy
import ObjectLang.Proofs.Reading
import ObjectLang.Proofs.Returning
import ObjectLang.Proofs.Rounding
import ObjectLang.Proofs.Safety
import ObjectLang.Proofs.Seam
import ObjectLang.Proofs.Substitution
import ObjectLang.Proofs.Transparency
import ObjectLang.Proofs.Void
import ObjectLang.Proofs.Weakening
